/-
Which scaling action `MOResourceOptimizer` takes: `selectBestAction`, with the
three comparisons of a candidate and the best action so far.

What they keep is a bound on the two values that are not optimised: each is
within its budget, or not above what it is now. Two branches check a value
against the budget of another one. `selectBestAction_respects_iff` says for which
budgets and which current action this cannot be seen in what is selected.
-/
import Compss.MultiObjective.MOScore

namespace Compss.MultiObjective

/-- In seconds, watt hours, euros, watts and euros an hour. -/
structure ConfigurationCost where
  time : ℚ
  energy : ℚ
  cost : ℚ
  power : ℚ
  price : ℚ
  deriving DecidableEq, Repr

/-- `MOResourceOptimizer.Action`. -/
structure ScalingAction where
  title : String
  cost : ConfigurationCost
  deriving DecidableEq, Repr

/-- The arguments of `selectBestAction`, by the values they bound. -/
structure Budgets where
  timeBudget : ℚ
  energyBudget : ℚ
  costBudget : ℚ
  powerBudget : ℚ
  priceBudget : ℚ
  deriving DecidableEq, Repr

namespace MOResourceOptimizer

def isAcceptable (candidate reference budget : ℚ) : Bool :=
  if reference > budget then candidate ≤ reference else candidate ≤ budget

def doesImproveTime (candidate reference : ScalingAction) (energyBudget costBudget : ℚ) : Bool :=
  let cCost := candidate.cost
  let rCost := reference.cost
  if cCost.time < rCost.time then
    isAcceptable cCost.energy rCost.energy energyBudget && isAcceptable cCost.cost rCost.cost costBudget
  else if cCost.time = rCost.time then
    if cCost.energy < rCost.energy then isAcceptable cCost.cost rCost.cost costBudget
    else if cCost.energy = rCost.energy then cCost.cost < rCost.cost
    else false
  else if rCost.energy > energyBudget ∧ cCost.energy < rCost.energy then
    isAcceptable cCost.cost rCost.cost costBudget
  else if rCost.cost > costBudget ∧ cCost.cost < rCost.cost then
    -- the energy, against the budget of the cost
    isAcceptable cCost.energy rCost.energy costBudget
  else false

def doesImproveCost (candidate reference : ScalingAction) (energyBudget timeBudget : ℚ) : Bool :=
  let cCost := candidate.cost
  let rCost := reference.cost
  if cCost.cost < rCost.cost then
    isAcceptable cCost.energy rCost.energy energyBudget && isAcceptable cCost.time rCost.time timeBudget
  else if cCost.cost = rCost.cost then
    if cCost.time < rCost.time then isAcceptable cCost.energy rCost.energy energyBudget
    else if cCost.time = rCost.time then cCost.energy < rCost.energy
    else false
  else if rCost.time > timeBudget ∧ cCost.time < rCost.time then
    -- the cost, against the budget of the energy
    isAcceptable cCost.cost rCost.cost energyBudget
  else if rCost.energy > energyBudget ∧ cCost.energy < rCost.energy then
    isAcceptable cCost.time rCost.time timeBudget
  else false

def doesImproveEnergy (candidate reference : ScalingAction) (timeBudget costBudget : ℚ) : Bool :=
  let cCost := candidate.cost
  let rCost := reference.cost
  if cCost.energy < rCost.energy then
    isAcceptable cCost.time rCost.time timeBudget && isAcceptable cCost.cost rCost.cost costBudget
  else if cCost.energy = rCost.energy then
    if cCost.time < rCost.time then isAcceptable cCost.cost rCost.cost costBudget
    else if cCost.time = rCost.time then cCost.cost < rCost.cost
    else false
  else if rCost.time > timeBudget ∧ cCost.time < rCost.time then
    isAcceptable cCost.cost rCost.cost costBudget
  else if rCost.cost > costBudget ∧ cCost.cost < rCost.cost then
    isAcceptable cCost.time rCost.time timeBudget
  else false

/-- The body of the loop: whether the candidate takes the place of the best
action. -/
def improves (optimization : OptimizationParameter) (b : Budgets) (action bestAction : ScalingAction) : Bool :=
  if action.cost.power > b.powerBudget ∨ action.cost.price > b.priceBudget then false
  else
    match optimization with
    | .TIME => doesImproveTime action bestAction b.energyBudget b.costBudget
    | .COST => doesImproveCost action bestAction b.energyBudget b.timeBudget
    | .ENERGY => doesImproveEnergy action bestAction b.timeBudget b.costBudget

def selectBestAction (optimization : OptimizationParameter) (b : Budgets) (currentAction : ScalingAction)
    (candidates : List ScalingAction) : ScalingAction :=
  candidates.foldl (fun bestAction action => if improves optimization b action bestAction then action else bestAction)
    currentAction

/-! ## What the budgets bound -/

/-- Power and price are within their budgets. -/
def Affordable (b : Budgets) (c : ConfigurationCost) : Prop :=
  c.power ≤ b.powerBudget ∧ c.price ≤ b.priceBudget

/-- The values that are not optimised are within their budgets, or not above
the values `current` has. -/
structure Within (optimization : OptimizationParameter) (b : Budgets) (current c : ConfigurationCost) : Prop where
  time : optimization ≠ .TIME → c.time ≤ max b.timeBudget current.time
  energy : optimization ≠ .ENERGY → c.energy ≤ max b.energyBudget current.energy
  cost : optimization ≠ .COST → c.cost ≤ max b.costBudget current.cost

/-- What is asked of the action that is selected. -/
def RespectsBudgets (optimization : OptimizationParameter) (b : Budgets) (current selected : ScalingAction) : Prop :=
  selected = current ∨ Affordable b selected.cost ∧ Within optimization b current.cost selected.cost

/-- No replacement is decided by the budget of another value, or it makes no
difference: the value that branch is for is within its budget from the
beginning, or the wrong budget is not the larger one. -/
def RightBudgets (b : Budgets) (current : ConfigurationCost) : OptimizationParameter → Prop
  | .TIME => current.cost ≤ b.costBudget ∨ b.costBudget ≤ max b.energyBudget current.energy
  | .COST => current.time ≤ b.timeBudget
  | .ENERGY => True

instance (b : Budgets) (current : ConfigurationCost) (o : OptimizationParameter) :
    Decidable (RightBudgets b current o) := by
  cases o <;> unfold RightBudgets <;> infer_instance

theorem isAcceptable_iff (candidate reference budget : ℚ) :
    isAcceptable candidate reference budget = true ↔ candidate ≤ max budget reference := by
  unfold isAcceptable
  split
  next h => simp [max_eq_right h.le]
  next h => simp [max_eq_left (not_lt.mp h)]

/-- A value that is acceptable beside one that keeps to the bound keeps to it. -/
theorem le_of_isAcceptable {candidate reference budget now : ℚ}
    (h : isAcceptable candidate reference budget = true) (href : reference ≤ max budget now) :
    candidate ≤ max budget now :=
  ((isAcceptable_iff _ _ _).mp h).trans (max_le (le_max_left _ _) href)

/-! ## One replacement -/

section
variable {b : Budgets} {current : ConfigurationCost} {candidate reference : ScalingAction}

theorem doesImproveTime_within (hb : RightBudgets b current .TIME) (href : Within .TIME b current reference.cost)
    (h : doesImproveTime candidate reference b.energyBudget b.costBudget = true) :
    Within .TIME b current candidate.cost := by
  have henergy := href.energy (by simp)
  have hcost := href.cost (by simp)
  refine ⟨fun h0 => absurd rfl h0, fun _ => ?energy, fun _ => ?cost⟩
  case energy =>
    simp only [doesImproveTime] at h
    split_ifs at h with h1 h2 h3 h4 h5 h6
    · exact le_of_isAcceptable (Bool.and_eq_true_iff.mp h).1 henergy
    · exact h3.le.trans henergy
    · exact h4.le.trans henergy
    · exact h5.2.le.trans henergy
    · -- the budget of the cost stands in the place of the one of the energy
      have hle := (isAcceptable_iff _ _ _).mp h
      rcases hb with hb | hb
      · exact absurd (h6.1.trans_le hcost) (by simp [hb])
      · exact hle.trans (max_le hb henergy)
  case cost =>
    simp only [doesImproveTime] at h
    split_ifs at h with h1 h2 h3 h4 h5 h6
    · exact le_of_isAcceptable (Bool.and_eq_true_iff.mp h).2 hcost
    · exact le_of_isAcceptable h hcost
    · exact (of_decide_eq_true h).le.trans hcost
    · exact le_of_isAcceptable h hcost
    · exact h6.2.le.trans hcost

theorem doesImproveCost_within (hb : RightBudgets b current .COST) (href : Within .COST b current reference.cost)
    (h : doesImproveCost candidate reference b.energyBudget b.timeBudget = true) :
    Within .COST b current candidate.cost := by
  have htime := href.time (by simp)
  have henergy := href.energy (by simp)
  -- the branch with the budget of the energy in the place of the one of the cost is not reached
  have hreach : ¬ reference.cost.time > b.timeBudget := by
    rw [max_eq_left hb] at htime
    exact not_lt.mpr htime
  refine ⟨fun _ => ?time, fun _ => ?energy, fun h0 => absurd rfl h0⟩
  case time =>
    simp only [doesImproveCost] at h
    split_ifs at h with h1 h2 h3 h4 h5 h6
    · exact le_of_isAcceptable (Bool.and_eq_true_iff.mp h).2 htime
    · exact h3.le.trans htime
    · exact h4.le.trans htime
    · exact absurd h5.1 hreach
    · exact le_of_isAcceptable h htime
  case energy =>
    simp only [doesImproveCost] at h
    split_ifs at h with h1 h2 h3 h4 h5 h6
    · exact le_of_isAcceptable (Bool.and_eq_true_iff.mp h).1 henergy
    · exact le_of_isAcceptable h henergy
    · exact (of_decide_eq_true h).le.trans henergy
    · exact absurd h5.1 hreach
    · exact h6.2.le.trans henergy

theorem doesImproveEnergy_within (href : Within .ENERGY b current reference.cost)
    (h : doesImproveEnergy candidate reference b.timeBudget b.costBudget = true) :
    Within .ENERGY b current candidate.cost := by
  have htime := href.time (by simp)
  have hcost := href.cost (by simp)
  refine ⟨fun _ => ?time, fun h0 => absurd rfl h0, fun _ => ?cost⟩
  case time =>
    simp only [doesImproveEnergy] at h
    split_ifs at h with h1 h2 h3 h4 h5 h6
    · exact le_of_isAcceptable (Bool.and_eq_true_iff.mp h).1 htime
    · exact h3.le.trans htime
    · exact h4.le.trans htime
    · exact h5.2.le.trans htime
    · exact le_of_isAcceptable h htime
  case cost =>
    simp only [doesImproveEnergy] at h
    split_ifs at h with h1 h2 h3 h4 h5 h6
    · exact le_of_isAcceptable (Bool.and_eq_true_iff.mp h).2 hcost
    · exact le_of_isAcceptable h hcost
    · exact (of_decide_eq_true h).le.trans hcost
    · exact le_of_isAcceptable h hcost
    · exact h6.2.le.trans hcost

theorem improves_affordable {optimization : OptimizationParameter}
    (h : improves optimization b candidate reference = true) : Affordable b candidate.cost := by
  unfold improves at h
  split_ifs at h with hover
  rw [not_or, not_lt, not_lt] at hover
  exact hover

theorem improves_within {optimization : OptimizationParameter} (hb : RightBudgets b current optimization)
    (href : Within optimization b current reference.cost)
    (h : improves optimization b candidate reference = true) :
    Within optimization b current candidate.cost := by
  unfold improves at h
  split_ifs at h with hover
  cases optimization with
  | TIME => exact doesImproveTime_within hb href h
  | COST => exact doesImproveCost_within hb href h
  | ENERGY => exact doesImproveEnergy_within href h

end

/-! ## All the candidates -/

theorem Within.refl (optimization : OptimizationParameter) (b : Budgets) (c : ConfigurationCost) :
    Within optimization b c c :=
  ⟨fun _ => le_max_right _ _, fun _ => le_max_right _ _, fun _ => le_max_right _ _⟩

theorem RespectsBudgets.within {optimization : OptimizationParameter} {b : Budgets}
    {current selected : ScalingAction} (h : RespectsBudgets optimization b current selected) :
    Within optimization b current.cost selected.cost := by
  rcases h with rfl | ⟨_, h⟩
  · exact .refl _ _ _
  · exact h

theorem selectBestAction_respects {optimization : OptimizationParameter} {b : Budgets} {current : ScalingAction}
    (hb : RightBudgets b current.cost optimization) (candidates : List ScalingAction) :
    RespectsBudgets optimization b current (selectBestAction optimization b current candidates) := by
  suffices hgen : ∀ bestAction, RespectsBudgets optimization b current bestAction →
      RespectsBudgets optimization b current (selectBestAction optimization b bestAction candidates) from
    hgen current (.inl rfl)
  induction candidates with
  | nil => exact fun _ h => h
  | cons action candidates ih =>
    intro bestAction hbest
    rw [selectBestAction, List.foldl_cons]
    refine ih _ ?_
    split
    next h => exact .inr ⟨improves_affordable h, improves_within hb hbest.within h⟩
    next => exact hbest

theorem improves_of_affordable {optimization : OptimizationParameter} {b : Budgets}
    {action bestAction : ScalingAction} (h : Affordable b action.cost) :
    improves optimization b action bestAction = match optimization with
      | .TIME => doesImproveTime action bestAction b.energyBudget b.costBudget
      | .COST => doesImproveCost action bestAction b.energyBudget b.timeBudget
      | .ENERGY => doesImproveEnergy action bestAction b.timeBudget b.costBudget := by
  unfold improves
  exact if_neg (not_or.mpr ⟨not_lt.mpr h.1, not_lt.mpr h.2⟩)

/-- Slower than the current action, it brings the cost down to its budget and
the energy up to the same number. -/
def slower (b : Budgets) (current : ConfigurationCost) : ScalingAction :=
  ⟨"slower", current.time + 1, b.costBudget, b.costBudget, b.powerBudget, b.priceBudget⟩

theorem not_respects_time {b : Budgets} {current : ScalingAction}
    (hcost : b.costBudget < current.cost.cost) (henergy : max b.energyBudget current.cost.energy < b.costBudget) :
    ¬ RespectsBudgets .TIME b current (selectBestAction .TIME b current [slower b current.cost]) := by
  have himproves : improves .TIME b (slower b current.cost) current = true := by
    rw [improves_of_affordable ⟨le_rfl, le_rfl⟩]
    have h1 : ¬ (slower b current.cost).cost.time < current.cost.time := by simp [slower]
    have h2 : ¬ (slower b current.cost).cost.time = current.cost.time := by simp [slower]
    have h3 : ¬ (current.cost.energy > b.energyBudget ∧ (slower b current.cost).cost.energy < current.cost.energy) :=
      fun h => (h.2.trans ((le_max_right _ _).trans_lt henergy)).false
    have h4 : current.cost.cost > b.costBudget ∧ (slower b current.cost).cost.cost < current.cost.cost :=
      ⟨hcost, hcost⟩
    simp only [doesImproveTime, if_neg h1, if_neg h2, if_neg h3, if_pos h4]
    exact (isAcceptable_iff _ _ _).mpr (le_max_left _ _)
  rw [selectBestAction, List.foldl_cons, if_pos himproves]
  intro h
  exact (henergy.trans_le (h.within.energy (by simp))).false

/-- Cheaper than the current action, and cheaper than the energy budget. -/
def cheaper (b : Budgets) (current : ConfigurationCost) : ScalingAction :=
  ⟨"cheaper", current.time, current.energy, min current.cost b.energyBudget - 1, b.powerBudget, b.priceBudget⟩

/-- It brings the time down to its budget, the cost up to the budget of the
energy, and the energy above every bound. -/
def faster (b : Budgets) (current : ConfigurationCost) : ScalingAction :=
  ⟨"faster", b.timeBudget, max b.energyBudget current.energy + 1, b.energyBudget, b.powerBudget, b.priceBudget⟩

theorem not_respects_cost {b : Budgets} {current : ScalingAction} (htime : b.timeBudget < current.cost.time) :
    ¬ RespectsBudgets .COST b current
      (selectBestAction .COST b current [cheaper b current.cost, faster b current.cost]) := by
  have hcheaper : improves .COST b (cheaper b current.cost) current = true := by
    rw [improves_of_affordable ⟨le_rfl, le_rfl⟩]
    have h1 : (cheaper b current.cost).cost.cost < current.cost.cost :=
      (sub_one_lt _).trans_le (min_le_left _ _)
    simp only [doesImproveCost, if_pos h1, Bool.and_eq_true, isAcceptable_iff]
    exact ⟨le_max_right _ _, le_max_right _ _⟩
  have hfaster : improves .COST b (faster b current.cost) (cheaper b current.cost) = true := by
    rw [improves_of_affordable ⟨le_rfl, le_rfl⟩]
    have hlt : (cheaper b current.cost).cost.cost < (faster b current.cost).cost.cost :=
      (sub_one_lt _).trans_le (min_le_right _ _)
    have h3 : (cheaper b current.cost).cost.time > b.timeBudget ∧
        (faster b current.cost).cost.time < (cheaper b current.cost).cost.time := ⟨htime, htime⟩
    simp only [doesImproveCost, if_neg hlt.not_gt, if_neg hlt.ne', if_pos h3]
    exact (isAcceptable_iff _ _ _).mpr (le_max_left _ _)
  rw [selectBestAction, List.foldl_cons, if_pos hcheaper, List.foldl_cons, if_pos hfaster]
  intro h
  exact ((lt_add_one _).trans_le (h.within.energy (by simp))).false

/-- Which budgets and which current action keep every selection within the
budgets. -/
theorem selectBestAction_respects_iff (optimization : OptimizationParameter) (b : Budgets) (current : ScalingAction) :
    (∀ candidates, RespectsBudgets optimization b current (selectBestAction optimization b current candidates)) ↔
      RightBudgets b current.cost optimization := by
  refine ⟨fun h => ?_, selectBestAction_respects⟩
  cases optimization with
  | TIME =>
    rw [RightBudgets, or_iff_not_imp_left]
    intro hcost
    by_contra henergy
    exact not_respects_time (not_le.mp hcost) (not_le.mp henergy) (h _)
  | COST =>
    by_contra htime
    exact not_respects_cost (not_le.mp htime) (h _)
  | ENERGY => trivial

/-- The energy of the action selected is above its budget and above what it is
now, and below the budget of the cost. -/
theorem selectBestAction_energy : ¬ RespectsBudgets .TIME ⟨10, 10, 20, 5, 5⟩ ⟨"Current Configuration", 1, 1, 30, 1, 1⟩
    (selectBestAction .TIME ⟨10, 10, 20, 5, 5⟩ ⟨"Current Configuration", 1, 1, 30, 1, 1⟩
      [⟨"Add", 2, 15, 18, 1, 1⟩]) := by
  have hselected : selectBestAction .TIME ⟨10, 10, 20, 5, 5⟩ ⟨"Current Configuration", 1, 1, 30, 1, 1⟩
      [⟨"Add", 2, 15, 18, 1, 1⟩] = ⟨"Add", 2, 15, 18, 1, 1⟩ := by decide +kernel
  rw [hselected]
  intro h
  have henergy := h.within.energy (by decide)
  norm_num at henergy

end MOResourceOptimizer

end Compss.MultiObjective
