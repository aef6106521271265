/-
The set of a datum's locations, over all calls of `addLocation` and
`removeValue`.

`compareTo` is a total order on the locations of one kind. Between two kinds
it is positive both ways, since each class compares its name ("es.bsc…") with
the text of a class ("class es.bsc…"), so it is an order on no set with
locations of two kinds: in the tree a location of one kind may be left of a
node of the other, where the search, which always goes right, does not come.
-/
import Compss.Lib.Run
import Compss.Locations.LogicalData
import Mathlib.Data.Finset.Basic

namespace Compss.Locations

open Lib

namespace DataLocation

/-! ## The order -/

/-- A location is greater than one of another kind, whichever the two are. -/
theorem compareTo_of_type_ne {l o : DataLocation} (h : l.getType ≠ o.getType) : 0 < l.compareTo o := by
  have hname : ∀ l : DataLocation, 0 < l.className.compareTo l.classToString := by
    intro l
    have hname : ∃ s, l.className = packageName ++ s := by cases l <;> exact ⟨_, rfl⟩
    have hpackage : packageName = 'e' :: "s.bsc.compss.types.data.location.".toList := by decide
    have hclass : ("class ".toList : Text) = 'c' :: "lass ".toList := by decide
    obtain ⟨s, hs⟩ := hname
    change 0 < Text.compareTo l.className ("class ".toList ++ l.className)
    rw [hs, hclass, hpackage]
    simp only [List.cons_append]
    rw [Text.compareTo_cons (by decide) (by decide) (by decide)]
    decide
  cases l <;> cases o <;> first
    | exact absurd rfl h
    | exact hname _

theorem orders_uri : TreeSet.Orders MultiURI.compareTo (fun u => (u.host, u.path)) fun _ => True :=
  (Text.orders_compareTo.comap MultiURI.host).lex (Text.orders_compareTo.comap MultiURI.path)

/-- On the locations of one kind `compareTo` is a total order. -/
theorem orders_of_type (k : LocationType) : TreeSet.Orders compareTo place fun l => l.getType = k := by
  cases k with
  | PRIVATE =>
    refine TreeSet.Orders.image (f := PrivateLocation) orders_uri (fun l hl => ?_) (fun _ _ => rfl) fun u v => ?_
    · cases l with
      | PrivateLocation uri => exact ⟨uri, rfl⟩
      | SharedLocation p d q => cases hl
      | PersistentLocation id => cases hl
    · simp [place]
  | SHARED =>
    have h : TreeSet.Orders _ _ fun _ => True :=
      (Text.orders_compareTo.comap fun s : Protocol × Text × Text => s.2.1).lex
        (Text.orders_compareTo.comap fun s => s.2.2)
    refine h.image (f := fun s => SharedLocation s.1 s.2.1 s.2.2) (fun l hl => ?_) (fun _ _ => rfl) fun u v => ?_
    · cases l with
      | PrivateLocation uri => cases hl
      | SharedLocation p d q => exact ⟨(p, d, q), rfl⟩
      | PersistentLocation id => cases hl
    · simp only [place, Place.onDisk.injEq, Prod.mk.injEq, id_eq]
  | PERSISTENT =>
    refine TreeSet.Orders.image (f := PersistentLocation) Text.orders_compareTo (fun l hl => ?_) (fun _ _ => rfl) fun u v => ?_
    · cases l with
      | PrivateLocation uri => cases hl
      | SharedLocation p d q => cases hl
      | PersistentLocation id => exact ⟨id, rfl⟩
    · simp [place]

/-- It is one on no others. -/
theorem orders_iff {S : DataLocation → Prop} :
    TreeSet.Orders compareTo place S ↔ ∀ l o, S l → S o → l.getType = o.getType := by
  constructor
  · intro h l o hl ho
    by_contra hne
    have hlo := compareTo_of_type_ne hne
    have hol := compareTo_of_type_ne (Ne.symm hne)
    have := (h.antisymm l o hl ho).2 hol
    omega
  · intro h
    by_cases hS : ∃ l, S l
    · obtain ⟨l, hl⟩ := hS
      exact (orders_of_type l.getType).mono fun o ho => h o l ho hl
    · refine ⟨fun a _ ha => ?_, fun a _ _ ha => ?_, fun a _ ha => ?_⟩ <;> exact absurd ⟨a, ha⟩ hS

end DataLocation

/-! ## Runs -/

inductive SetCall
  | addLocation (loc : DataLocation)
  | removeValue (disks : SharedDiskManager)

/-- A datum, with the places added to it and not removed since. -/
structure Tracked where
  datum : LogicalData
  places : Finset Place

namespace Tracked
variable (env : Paths) (appHost : Resource)

def init (name : Text) : Tracked := ⟨.new name, ∅⟩

def step (s : Tracked) : SetCall → Option Tracked
  | .addLocation loc => some ⟨s.datum.addLocation loc, insert loc.place s.places⟩
  | .removeValue disks =>
    (s.datum.removeValue env disks appHost).bind fun (datum, _) =>
      (LogicalData.memoryLocation env disks appHost s.datum.name).map fun loc => ⟨datum, s.places.erase loc.place⟩

/-- The locations are in order, and each place is there once or not at all, as
it was added or not. -/
structure IsSet (s : Tracked) : Prop where
  orders : TreeSet.Orders DataLocation.compareTo DataLocation.place fun l => l ∈ s.datum.getLocations
  count : ∀ p, (s.datum.getLocations.map DataLocation.place).count p = if p ∈ s.places then 1 else 0

/-- What is added is of the kind of what is there. -/
def OfOneType (s : Tracked) : SetCall → Prop
  | .addLocation loc => ∀ l ∈ s.datum.getLocations, l.getType = loc.getType
  | .removeValue _ => True

structure OK (s : Tracked) : Prop where
  oneType : ∀ l o, l ∈ s.datum.getLocations → o ∈ s.datum.getLocations → l.getType = o.getType
  sorted : s.datum.locations.Sorted DataLocation.compareTo
  mem : ∀ p, p ∈ s.datum.getLocations.map DataLocation.place ↔ p ∈ s.places

theorem OK.isSet {s : Tracked} (h : s.OK) : s.IsSet where
  orders := DataLocation.orders_iff.2 h.oneType
  count p := by
    have hnodup := h.sorted.nodup_keys (DataLocation.orders_iff.2 h.oneType) fun _ => id
    split
    · rename_i hp
      exact List.count_eq_one_of_mem hnodup ((h.mem p).2 hp)
    · rename_i hp
      exact List.count_eq_zero_of_not_mem fun hmem => hp ((h.mem p).1 hmem)

theorem OK.init (name : Text) : (init name).OK where
  oneType l o hl := by simp [Tracked.init, LogicalData.new, LogicalData.getLocations] at hl
  sorted := TreeSet.sorted_nil
  mem p := by simp [Tracked.init, LogicalData.new, LogicalData.getLocations]

/-- The locations of one kind, with one more of that kind. -/
theorem orders_insert {s : Tracked} (h : s.OK) {loc : DataLocation}
    (hloc : ∀ l ∈ s.datum.getLocations, l.getType = loc.getType) :
    TreeSet.Orders DataLocation.compareTo DataLocation.place fun l => l = loc ∨ l ∈ s.datum.getLocations := by
  rw [DataLocation.orders_iff]
  rintro l o (rfl | hl) (rfl | ho)
  · rfl
  · exact (hloc o ho).symm
  · exact hloc l hl
  · exact h.oneType l o hl ho

theorem OK.addLocation {s : Tracked} (h : s.OK) {loc : DataLocation}
    (hloc : ∀ l ∈ s.datum.getLocations, l.getType = loc.getType) :
    OK ⟨s.datum.addLocation loc, insert loc.place s.places⟩ where
  oneType l o hl ho := by
    have ho' := DataLocation.orders_iff.1 (orders_insert h hloc)
    exact ho' l o (TreeSet.mem_elems_add hl) (TreeSet.mem_elems_add ho)
  sorted := TreeSet.sorted_add (orders_insert h hloc) (.inl rfl) (fun _ => .inr) h.sorted
  mem p := by
    rw [Finset.mem_insert, ← h.mem p]
    exact TreeSet.mem_keys_add (orders_insert h hloc) (.inl rfl) (fun _ => .inr) p

/-- A location of another kind than those there is not among them. -/
theorem elems_remove_of_type_ne {t : TreeSet DataLocation} {loc : DataLocation}
    (hloc : ∀ l ∈ t.elems, l.getType ≠ loc.getType) : (t.remove DataLocation.compareTo loc).elems = t.elems := by
  rcases TreeSet.elems_remove DataLocation.compareTo loc t with ⟨he, -⟩ | ⟨u, a, v, ht, h0, -⟩
  · exact he
  · have := DataLocation.compareTo_of_type_ne (hloc a (by simp [ht])).symm
    omega

theorem OK.removeValue {s : Tracked} (h : s.OK) (loc : DataLocation) :
    OK ⟨{ s.datum with value := none, locations := s.datum.locations.remove DataLocation.compareTo loc },
      s.places.erase loc.place⟩ where
  oneType l o hl ho := h.oneType l o ((TreeSet.elems_remove_sublist _ _ _).subset hl)
    ((TreeSet.elems_remove_sublist _ _ _).subset ho)
  sorted := h.sorted.remove loc
  mem p := by
    rw [Finset.mem_erase, ← h.mem p, and_comm]
    by_cases hloc : ∀ l ∈ s.datum.getLocations, l.getType = loc.getType
    · exact TreeSet.mem_keys_remove (orders_insert h hloc) (.inl rfl) (fun _ => .inr) h.sorted p
    · push Not at hloc
      obtain ⟨l, hl, hne⟩ := hloc
      have hother : ∀ o ∈ s.datum.getLocations, o.getType ≠ loc.getType := fun o ho => h.oneType l o hl ho ▸ hne
      have he : (s.datum.locations.remove DataLocation.compareTo loc).elems = s.datum.locations.elems :=
        elems_remove_of_type_ne hother
      simp only [LogicalData.getLocations, he, iff_self_and]
      rintro hp rfl
      obtain ⟨o, ho, hplace⟩ := List.mem_map.1 hp
      exact hother o ho (DataLocation.getType_of_place hplace)

variable {env appHost}

theorem OK.step {s t : Tracked} {c : SetCall} (h : s.OK) (hc : s.OfOneType c) (hstep : step env appHost s c = some t) :
    t.OK := by
  cases c with
  | addLocation loc =>
    cases hstep
    exact h.addLocation hc
  | removeValue disks =>
    simp only [Tracked.step, LogicalData.removeValue] at hstep
    cases hloc : LogicalData.memoryLocation env disks appHost s.datum.name with
    | none => simp [hloc] at hstep
    | some loc =>
      simp only [hloc, Option.map_some, Option.bind_some, Option.some.injEq] at hstep
      exact hstep ▸ h.removeValue loc

/-- With a location of another kind the order is lost. -/
theorem OK.not_isSet {s t : Tracked} {c : SetCall} (h : s.OK) (hc : ¬ s.OfOneType c)
    (hstep : Tracked.step env appHost s c = some t) : ¬ t.IsSet := by
  cases c with
  | removeValue disks => exact absurd trivial hc
  | addLocation loc =>
    cases hstep
    simp only [OfOneType, not_forall] at hc
    obtain ⟨l, hl, hne⟩ := hc
    have hadd : (s.datum.addLocation loc).getLocations = s.datum.getLocations ++ [loc] :=
      TreeSet.elems_add_of_greater fun o ho =>
        DataLocation.compareTo_of_type_ne fun heq => hne ((h.oneType l o hl ho).trans heq.symm)
    intro hset
    have horders := DataLocation.orders_iff.1 hset.orders
    exact hne (horders l loc (by simp [hadd, hl]) (by simp [hadd]))

end Tracked

/-- **The locations of a datum form a set while they are of one kind.**
`compareTo` is a total order, zero for the same place only, on the sets of
locations of one kind and on no others; and in all runs of `addLocation` and
`removeValue` the locations are in that order, each place added and not
removed there once and no other, exactly if every location added is of the
kind of those that are there. -/
theorem locations_form_set (env : Paths) (appHost : Resource) (name : Text) (calls : List SetCall) :
    (∀ S : DataLocation → Prop, TreeSet.Orders DataLocation.compareTo DataLocation.place S ↔
      ∀ l o, S l → S o → l.getType = o.getType) ∧
    (Always (Tracked.step env appHost) Tracked.IsSet (Tracked.init name) calls ↔
      Along (Tracked.step env appHost) Tracked.OfOneType (Tracked.init name) calls) := by
  refine ⟨fun S => DataLocation.orders_iff, ?_⟩
  refine always_iff_along (I := Tracked.OK) (fun s h => h.isSet) ?_ ?_ (Tracked.OK.init name)
  · intro s c t h hc hstep
    exact h.step hc hstep
  · intro s c t h hc hstep
    exact h.not_isSet hc hstep

/-- No shared disks; paths as they are. -/
def plainPaths : Paths := ⟨HashOrder.asPut _, some, some, fun _ => []⟩

/-- The object in the memory of the master, a file on a shared disk, a file on a
worker: `removeValue` does not find the first, and adding it again makes it
two. -/
def mixedLocations : List DataLocation :=
  [.PrivateLocation ⟨.objectUri, "master".toList, "d1v1".toList⟩,
   .SharedLocation .fileUri "gpfs".toList "d1v1".toList,
   .PrivateLocation ⟨.fileUri, "worker".toList, "/tmp/d1v1".toList⟩]

theorem memory_location_missed :
    (∃ l o : DataLocation, 0 < l.compareTo o ∧ 0 < o.compareTo l) ∧
    ((run (Tracked.step plainPaths "master".toList) (Tracked.init "d1v1".toList)
        (mixedLocations.map .addLocation ++ [.removeValue .empty])).map fun s =>
          (s.datum.getLocations.map DataLocation.place).count (.inHost "master".toList "d1v1".toList)) = some 1 ∧
    ((run (Tracked.step plainPaths "master".toList) (Tracked.init "d1v1".toList)
        ((mixedLocations ++ mixedLocations).map .addLocation)).map fun s =>
          (s.datum.getLocations.map DataLocation.place).count (.inHost "master".toList "d1v1".toList)) = some 2 := by
  refine ⟨⟨.PrivateLocation ⟨.objectUri, "master".toList, "d1v1".toList⟩,
    .SharedLocation .fileUri "gpfs".toList "d1v1".toList, ?_, ?_⟩, ?_, ?_⟩
  · exact DataLocation.compareTo_of_type_ne (by decide)
  · exact DataLocation.compareTo_of_type_ne (by decide)
  · decide +kernel
  · decide +kernel

end Compss.Locations
