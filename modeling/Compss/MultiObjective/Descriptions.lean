/-
What the gaps of a worker need of a resource description, and what it takes for
the amounts to be kept account of: every operation moves what it says.
-/
import Mathlib.Data.Int.Order.Basic
import Mathlib.Tactic.Common

namespace Compss.MultiObjective

/-- `ResourceDescription`; of an operation that changes its object, the object
afterwards. -/
class ResourceDescription (ρ : Type) where
  copy : ρ → ρ
  getDynamicCommons : ρ → ρ → ρ
  reduceDynamic : ρ → ρ → ρ
  increaseDynamic : ρ → ρ → ρ
  isDynamicUseless : ρ → Bool
  isDynamicConsuming : ρ → Bool

open ResourceDescription

/-- `reduceCommonDynamics`: what is left of both, and what they had in common. -/
def reduceCommonDynamics {ρ : Type} [ResourceDescription ρ] (gapResource constraints : ρ) : ρ × ρ × ρ :=
  let commons := getDynamicCommons gapResource constraints
  (reduceDynamic gapResource commons, reduceDynamic constraints commons, commons)

/-- Amounts that the operations keep account of, on the descriptions that are
`Valid`; the ones that are `Whole` may also be copied. -/
structure Accounting (ρ ι : Type) [ResourceDescription ρ] where
  amount : ρ → ι → Int
  Valid : ρ → Prop
  Whole : ρ → Prop
  valid_of_whole : ∀ {x}, Whole x → Valid x
  amount_nonneg : ∀ {x}, Valid x → ∀ i, 0 ≤ amount x i
  whole_copy : ∀ {x}, Whole x → Whole (copy x)
  amount_copy : ∀ {x}, Whole x → ∀ i, amount (copy x) i = amount x i
  amount_commons : ∀ {x y}, Valid x → Valid y → ∀ i, amount (getDynamicCommons x y) i = min (amount x i) (amount y i)
  whole_commons : ∀ {x y}, Valid x → Valid y → isDynamicConsuming (getDynamicCommons x y) = true →
    Whole (getDynamicCommons x y)
  commons_idle : ∀ {x y}, Valid x → Valid y → isDynamicConsuming (getDynamicCommons x y) = false →
    ∀ i, amount (getDynamicCommons x y) i = 0
  commons_useless : ∀ {x y}, Valid x → Valid y →
    isDynamicUseless (getDynamicCommons x y) = !isDynamicConsuming (getDynamicCommons x y)
  /-- What is common can be taken from the one and from the other. -/
  reduce_left : ∀ {x y}, Valid x → Valid y → Valid (reduceDynamic x (getDynamicCommons x y)) ∧
    ∀ i, amount (reduceDynamic x (getDynamicCommons x y)) i = amount x i - amount (getDynamicCommons x y) i
  reduce_right : ∀ {x y}, Valid x → Valid y → Valid (reduceDynamic y (getDynamicCommons x y)) ∧
    ∀ i, amount (reduceDynamic y (getDynamicCommons x y)) i = amount y i - amount (getDynamicCommons x y) i
  reduce : ∀ {x y}, Valid x → Whole y → (∀ i, amount y i ≤ amount x i) → Valid (reduceDynamic x y) ∧
    ∀ i, amount (reduceDynamic x y) i = amount x i - amount y i
  increase : ∀ {x y}, Valid x → Valid y → Valid (increaseDynamic x y) ∧
    ∀ i, amount (increaseDynamic x y) i = amount x i + amount y i
  useless_iff : ∀ {x}, Valid x → (isDynamicUseless x = true ↔ ∀ i, amount x i = 0)

/-! ## Services -/

/-- `ServiceResourceDescription`. -/
structure ServiceResourceDescription where
  serviceName : String
  nameSpace : String
  port : String
  connections : Int
  deriving DecidableEq, Repr

namespace ServiceResourceDescription

/-- Of what is taken or common, only the connections are known. -/
def ofConnections (connections : Int) : ServiceResourceDescription := ⟨"", "", "", connections⟩

instance : ResourceDescription ServiceResourceDescription where
  copy d := d
  getDynamicCommons d constraints := ofConnections (min constraints.connections d.connections)
  reduceDynamic d rd := { d with connections := d.connections - rd.connections }
  increaseDynamic d rd := { d with connections := d.connections + rd.connections }
  isDynamicUseless d := d.connections = 0
  isDynamicConsuming d := d.connections > 0

@[simp] theorem commons_connections (d constraints : ServiceResourceDescription) :
    (getDynamicCommons d constraints).connections = min constraints.connections d.connections := rfl

@[simp] theorem reduce_connections (d rd : ServiceResourceDescription) :
    (reduceDynamic d rd).connections = d.connections - rd.connections := rfl

@[simp] theorem increase_connections (d rd : ServiceResourceDescription) :
    (increaseDynamic d rd).connections = d.connections + rd.connections := rfl

@[simp] theorem isDynamicUseless_iff (d : ServiceResourceDescription) :
    isDynamicUseless d = true ↔ d.connections = 0 := decide_eq_true_iff

@[simp] theorem isDynamicConsuming_iff (d : ServiceResourceDescription) :
    isDynamicConsuming d = true ↔ 0 < d.connections := decide_eq_true_iff

/-- The connections of a service. -/
def accounting : Accounting ServiceResourceDescription Unit where
  amount d _ := d.connections
  Valid d := 0 ≤ d.connections
  Whole d := 0 ≤ d.connections
  valid_of_whole := id
  amount_nonneg h _ := h
  whole_copy := id
  amount_copy _ _ := rfl
  amount_commons := by
    intro x y _ _ _
    exact min_comm _ _
  whole_commons := by
    intro x y hx hy _
    exact le_min hy hx
  commons_idle := by
    intro x y hx hy h _
    rw [← Bool.not_eq_true, isDynamicConsuming_iff, commons_connections] at h
    show min y.connections x.connections = 0
    omega
  commons_useless := by
    intro x y hx hy
    rw [Bool.eq_iff_iff, Bool.not_eq_true', ← Bool.not_eq_true, isDynamicUseless_iff, isDynamicConsuming_iff,
      commons_connections]
    omega
  reduce_left := by
    intro x y hx hy
    refine ⟨?_, fun _ => rfl⟩
    rw [reduce_connections, commons_connections]
    omega
  reduce_right := by
    intro x y hx hy
    refine ⟨?_, fun _ => rfl⟩
    rw [reduce_connections, commons_connections]
    omega
  reduce := by
    intro x y _ _ h
    refine ⟨?_, fun _ => rfl⟩
    have := h ()
    rw [reduce_connections]
    omega
  increase := by
    intro x y hx hy
    refine ⟨?_, fun _ => rfl⟩
    rw [increase_connections]
    omega
  useless_iff := by
    intro x _
    rw [isDynamicUseless_iff]
    exact ⟨fun h _ => h, fun h => h ()⟩

end ServiceResourceDescription

end Compss.MultiObjective
