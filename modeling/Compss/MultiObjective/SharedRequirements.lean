/-
What implementations ask for stays as it is while their actions are planned, as
long as no gap refers to it that is reduced where it is.

Two gaps are made with the requirements themselves. The one is made by `fillGap`,
which is never called: `reserveResources` ends every gap when the event is that it
is filled for. The other one becomes a predecessor of an action that is blocked
for lack of resources, and is reduced if the action is still a successor of one
that is unscheduled then: `requirements_kept` is about the runs without this.
-/
import Compss.MultiObjective.GapReferences

namespace Compss.MultiObjective.ByReference

open Lib

variable {ρ : Type}

/-- The gaps have descriptions of their own. -/
def AllMade (gaps : List Gap) : Prop := ∀ g ∈ gaps, g.resources.IsMade

instance (gaps : List Gap) : Decidable (AllMade gaps) := inferInstanceAs (Decidable (∀ g ∈ gaps, g.resources.IsMade))

/-- The requirements are what they were, and nothing that can be reduced refers to
them: the gaps of the scheduler and of the state do not, nor do the predecessors
of the actions in `owners`. -/
structure Kept (implementations : ImplementationId → ρ) (owners : List ActionId) (s : MOResourceScheduler ρ) : Prop where
  given : s.memory.given = implementations
  gaps : AllMade s.gaps
  stateGaps : AllMade s.state.gaps
  missingResources : ∀ r ∈ s.state.missingResources, r.IsMade
  predecessors : ∀ a ∈ owners, AllMade (s.info (.action a)).resourcePredecessors

/-- The information of the action has `P`. -/
def InfoHas (P : MOSchedulingInformation → Prop) (a : ActionId) (s : MOResourceScheduler ρ) : Prop := P (s.info (.action a))

/-- All successors are owners. -/
def SuccessorsIn (owners : List ActionId) (i : MOSchedulingInformation) : Prop := ∀ b ∈ i.resourceSuccessors, b ∈ owners

/-- The gaps end at a time. -/
def EndAt (startTime : Int) (gaps : List Gap) : Prop := ∀ g ∈ gaps, g.endTime = startTime

section
variable {implementations : ImplementationId → ρ} {owners : List ActionId} {r rd : Ref} {x : ρ} {a : ActionId}
  {o : AllocatableAction} {g : Gap} {gaps : List Gap}

theorem allMade_nil : AllMade [] := by simp [AllMade]

theorem AllMade.append {gaps' : List Gap} (h : AllMade gaps) (h' : AllMade gaps') : AllMade (gaps ++ gaps') :=
  List.forall_mem_append.mpr ⟨h, h'⟩

theorem allMade_cons : AllMade (g :: gaps) ↔ g.resources.IsMade ∧ AllMade gaps := List.forall_mem_cons

theorem AllMade.reverse (h : AllMade gaps) : AllMade gaps.reverse := fun g hg => h g (List.mem_reverse.mp hg)

theorem AllMade.filter (h : AllMade gaps) (p : Gap → Bool) : AllMade (gaps.filter p) :=
  fun g hg => h g (List.mem_of_mem_filter hg)

theorem AllMade.insertGap (h : AllMade gaps) (hg : g.resources.IsMade) : AllMade (insertGap g gaps) := by
  induction gaps with
  | nil => exact allMade_cons.mpr ⟨hg, allMade_nil⟩
  | cons gap gaps ih =>
    obtain ⟨hgap, hgaps⟩ := allMade_cons.mp h
    rw [ByReference.insertGap]
    split
    · exact allMade_cons.mpr ⟨hgap, ih hgaps⟩
    · exact allMade_cons.mpr ⟨hg, h⟩

/-! ## Descriptions -/

theorem keeps_read (r : Ref) : Keeps (Kept implementations owners) (read r : M ρ ρ) fun _ => True :=
  Keeps.get.bind fun _ _ => .pure trivial

theorem keeps_write (hr : r.IsMade) (x : ρ) : Keeps (Kept implementations owners) (write r x) fun _ => True :=
  .modify fun _ h => { h with given := (Memory.given_write hr).trans h.given }

theorem keeps_make (x : ρ) : Keeps (Kept implementations owners) (make x) Ref.IsMade :=
  Keeps.get.bind fun _ _ =>
    .bind (.modify fun _ h => { h with given := Memory.given_make.trans h.given }) fun _ _ => .pure trivial

theorem keeps_requirements (a : ActionId) :
    Keeps (Kept implementations owners) (requirements a : M ρ Ref) fun _ => True :=
  Keeps.get.bind fun _ _ => .pure trivial

variable [ResourceDescription ρ]

theorem keeps_copy (r : Ref) : Keeps (Kept implementations owners) (copy r : M ρ Ref) Ref.IsMade :=
  (keeps_read r).bind fun _ _ => keeps_make _

theorem keeps_isDynamicUseless (r : Ref) :
    Keeps (Kept implementations owners) (isDynamicUseless r : M ρ Bool) fun _ => True :=
  (keeps_read r).bind fun _ _ => .pure trivial

theorem keeps_isDynamicConsuming (r : Ref) :
    Keeps (Kept implementations owners) (isDynamicConsuming r : M ρ Bool) fun _ => True :=
  (keeps_read r).bind fun _ _ => .pure trivial

theorem keeps_reduceDynamic (hr : r.IsMade) (rd : Ref) :
    Keeps (Kept implementations owners) (reduceDynamic r rd : M ρ Unit) fun _ => True :=
  (keeps_read r).bind fun _ _ => (keeps_read rd).bind fun _ _ => keeps_write hr _

theorem keeps_increaseDynamic (hr : r.IsMade) (rd : Ref) :
    Keeps (Kept implementations owners) (increaseDynamic r rd : M ρ Unit) fun _ => True :=
  (keeps_read r).bind fun _ _ => (keeps_read rd).bind fun _ _ => keeps_write hr _

/-- Both descriptions are reduced where they are. -/
theorem keeps_reduceCommonDynamics {gapResource constraints : Ref} (hgap : gapResource.IsMade)
    (hconstraints : constraints.IsMade) :
    Keeps (Kept implementations owners) (reduceCommonDynamics gapResource constraints : M ρ Ref) Ref.IsMade :=
  (keeps_read _).bind fun _ _ => (keeps_read _).bind fun _ _ => (keeps_make _).bind fun _ hcommons =>
    (keeps_reduceDynamic hgap _).bind fun _ _ => (keeps_reduceDynamic hconstraints _).bind fun _ _ => .pure hcommons

omit [ResourceDescription ρ]

/-! ## Scheduling information -/

/-- The information of an action is changed, and gains no gap that is not made. -/
theorem keeps_setInfo (o : AllocatableAction) {f : MOSchedulingInformation → MOSchedulingInformation}
    (hf : ∀ i, ∀ g ∈ (f i).resourcePredecessors, g ∈ i.resourcePredecessors ∨ g.resources.IsMade) :
    Keeps (Kept implementations owners) (setInfo o f : M ρ Unit) fun _ => True := by
  refine .modify fun s h => { h with predecessors := fun a ha g hg => ?_ }
  dsimp only at hg
  by_cases ho : AllocatableAction.action a = o
  · subst ho
    rw [Function.update_self] at hg
    exact (hf _ g hg).elim (h.predecessors a ha g) id
  · rw [Function.update_of_ne ho] at hg
    exact h.predecessors a ha g hg

/-- The predecessors stay as they are. -/
theorem keeps_setInfo_of_eq (o : AllocatableAction) {f : MOSchedulingInformation → MOSchedulingInformation}
    (hf : ∀ i, (f i).resourcePredecessors = i.resourcePredecessors) :
    Keeps (Kept implementations owners) (setInfo o f : M ρ Unit) fun _ => True :=
  keeps_setInfo o fun i g hg => .inl (hf i ▸ hg)

theorem keeps_getInfo (o : AllocatableAction) :
    Keeps (Kept implementations owners) (getInfo o : M ρ MOSchedulingInformation)
      fun i => ∀ a ∈ owners, o = .action a → AllMade i.resourcePredecessors :=
  Keeps.get.bind fun _ h => .pure fun a ha ho => ho ▸ h.predecessors a ha

theorem keeps_addPredecessor (a : ActionId) (hg : g.resources.IsMade) :
    Keeps (Kept implementations owners) (addPredecessor a g : M ρ Unit) fun _ => True :=
  keeps_setInfo _ fun i g' hg' => (List.mem_append.mp hg').imp_right fun hlast => by
    rw [List.mem_singleton.mp hlast]
    exact hg

theorem keeps_removePredecessor (a : ActionId) (o : AllocatableAction) :
    Keeps (Kept implementations owners) (removePredecessor a o : M ρ (Option Gap))
      fun toCover => a ∈ owners → ∀ g ∈ toCover, g.resources.IsMade := by
  refine (keeps_getInfo _).bind fun i hi => .bind (keeps_setInfo _ fun i g hg => ?_) fun _ _ => .pure ?_
  · exact .inl (List.mem_of_mem_filter hg)
  · exact fun ha g hg => hi a ha rfl g (List.mem_of_getLast? hg)

theorem keeps_clearPredecessors (a : ActionId) :
    Keeps (Kept implementations owners) (clearPredecessors a : M ρ Unit) fun _ => True :=
  keeps_setInfo _ fun _ _ hg => absurd hg List.not_mem_nil

theorem keeps_unscheduled (a : ActionId) : Keeps (Kept implementations owners) (unscheduled a : M ρ Unit) fun _ => True :=
  keeps_setInfo _ fun _ _ hg => absurd hg List.not_mem_nil

theorem keeps_addSuccessor (o : AllocatableAction) (a : ActionId) :
    Keeps (Kept implementations owners) (addSuccessor o a : M ρ Unit) fun _ => True :=
  keeps_setInfo_of_eq _ fun _ => rfl

theorem keeps_removeSuccessor (o : AllocatableAction) (a : ActionId) :
    Keeps (Kept implementations owners) (removeSuccessor o a : M ρ Unit) fun _ => True :=
  keeps_setInfo_of_eq _ fun _ => rfl

theorem keeps_clearSuccessors (o : AllocatableAction) :
    Keeps (Kept implementations owners) (clearSuccessors o : M ρ Unit) fun _ => True :=
  keeps_setInfo_of_eq _ fun _ => rfl

theorem keeps_setInterval (a : ActionId) (expectedStart expectedEnd : Int) :
    Keeps (Kept implementations owners) (setInterval a expectedStart expectedEnd : M ρ Unit) fun _ => True :=
  keeps_setInfo_of_eq _ fun _ => rfl

theorem keeps_setToReschedule (a : ActionId) (b : Bool) :
    Keeps (Kept implementations owners) (setToReschedule a b : M ρ Unit) fun _ => True :=
  keeps_setInfo_of_eq _ fun _ => rfl

theorem keeps_setOnOptimization (a : ActionId) (b : Bool) :
    Keeps (Kept implementations owners) (setOnOptimization a b : M ρ Unit) fun _ => True :=
  keeps_setInfo_of_eq _ fun _ => rfl

theorem keeps_setScheduled (a : ActionId) :
    Keeps (Kept implementations owners) (setScheduled a : M ρ Unit) fun _ => True :=
  keeps_setInfo_of_eq _ fun _ => rfl

theorem keeps_isExecutable (a : ActionId) :
    Keeps (Kept implementations owners) (isExecutable a : M ρ Bool) fun _ => True :=
  (keeps_getInfo _).bind fun _ _ => .pure trivial

theorem keeps_newOptimizationAction :
    Keeps (Kept implementations owners) (newOptimizationAction : M ρ AllocatableAction) fun _ => True :=
  Keeps.get.bind fun _ _ => .bind (.modify fun _ h => { h with }) fun _ _ =>
    .bind (keeps_setInfo _ fun _ _ hg => absurd hg List.not_mem_nil) fun _ _ => .pure trivial

theorem keeps_assignImplementation (a : ActionId) (implementation : ImplementationId) :
    Keeps (Kept implementations owners) (assignImplementation a implementation : M ρ Unit) fun _ => True :=
  .modify fun _ h => { h with }

/-! ## Gaps -/

theorem keeps_setGaps (hgaps : AllMade gaps) :
    Keeps (Kept implementations owners) (setGaps gaps : M ρ Unit) fun _ => True :=
  .modify fun _ h => { h with gaps := hgaps }

theorem keeps_dataStart (dataPredecessors : List DataPredecessor) :
    Keeps (Kept implementations owners) (dataStart dataPredecessors : M ρ Int) fun _ => True :=
  Keeps.get.bind fun _ _ => .pure trivial

theorem keeps_addDependency (a : ActionId) (expectedStart : Int) (hg : g.resources.IsMade) :
    Keeps (Kept implementations owners) (addDependency a expectedStart g : M ρ Int) fun _ => True := by
  have hadd : Keeps (Kept implementations owners) (addPredecessor a g : M ρ Unit) fun _ => True :=
    keeps_addPredecessor a hg
  rw [addDependency]
  split
  · refine (keeps_getInfo _).bind fun i _ => .ite (fun _ => ?_) fun _ => ?_
    · exact (keeps_addSuccessor _ a).bind fun _ _ => hadd.bind fun _ _ => .pure trivial
    · exact hadd.bind fun _ _ => .pure trivial
  · exact hadd.bind fun _ _ => .pure trivial

theorem keeps_link (a : ActionId) (hg : g.resources.IsMade) :
    Keeps (Kept implementations owners) (link a g : M ρ Unit) fun _ => True := by
  rw [link]
  split
  · exact (keeps_addSuccessor _ a).bind fun _ _ => keeps_addPredecessor a hg
  · exact .pure trivial

/-- What a walk keeps and what it takes. -/
structure Walk.Made (walk : Walk) : Prop where
  gaps : AllMade walk.gaps
  predecessors : AllMade walk.predecessors

variable [ResourceDescription ρ]

theorem keeps_addGap (hg : g.resources.IsMade) :
    Keeps (Kept implementations owners) (addGap g : M ρ Unit) fun _ => True := by
  refine Keeps.get.bind fun s hs => ?_
  split
  · next registeredGap hfind => exact keeps_increaseDynamic (hs.gaps _ (List.mem_of_find?_eq_some hfind)) _
  · exact .modify fun s h => { h with gaps := h.gaps.insertGap hg }

theorem keeps_useGap {resources : Ref} (hg : g.resources.IsMade) (hresources : resources.IsMade) :
    Keeps (Kept implementations owners) (useGap g resources : M ρ (List Gap)) AllMade := by
  refine (keeps_reduceCommonDynamics hg hresources).bind fun used hused => (keeps_isDynamicConsuming used).bind fun c _ => ?_
  exact .ite (fun _ => .pure (allMade_cons.mpr ⟨hused, allMade_nil⟩)) fun _ => .pure allMade_nil

theorem keeps_useGaps (inTime : Int → Bool) {constraints : Ref} (hconstraints : constraints.IsMade)
    (hgaps : AllMade gaps) :
    Keeps (Kept implementations owners) (useGaps inTime constraints gaps : M ρ Walk) Walk.Made := by
  induction gaps with
  | nil => exact .pure ⟨allMade_nil, allMade_nil⟩
  | cons gap gaps ih =>
    obtain ⟨hgap, hrest⟩ := allMade_cons.mp hgaps
    have hone : AllMade [gap] := allMade_cons.mpr ⟨hgap, allMade_nil⟩
    refine .ite (fun _ => ?_) fun _ => ?_
    · refine (keeps_useGap hgap hconstraints).bind fun predecessors hpredecessors =>
        (keeps_isDynamicUseless _).bind fun covered _ => (keeps_isDynamicUseless _).bind fun useless _ => ?_
      have hkept : AllMade (if useless then [] else [gap]) := by
        split
        · exact allMade_nil
        · exact hone
      refine .ite (fun _ => .pure ⟨hkept.append hrest, hpredecessors⟩) fun _ => ?_
      exact (ih hrest).bind fun rest h => .pure ⟨hkept.append h.gaps, hpredecessors.append h.predecessors⟩
    · exact (ih hrest).bind fun rest h => .pure ⟨allMade_cons.mpr ⟨hgap, h.gaps⟩, h.predecessors⟩

theorem keeps_walkGaps (expectedStart : Int) {constraints : Ref} (hconstraints : constraints.IsMade) :
    Keeps (Kept implementations owners) (walkGaps expectedStart constraints : M ρ Walk) Walk.Made := by
  refine Keeps.get.bind fun s hs => (keeps_useGaps _ hconstraints hs.gaps.reverse).bind fun early hearly => ?_
  refine .ite (fun _ => .pure ⟨hearly.gaps.reverse, hearly.predecessors⟩) fun _ => ?_
  exact (keeps_useGaps _ hconstraints hearly.gaps.reverse).bind fun late hlate =>
    .pure ⟨hlate.gaps, hearly.predecessors.append hlate.predecessors⟩

/-! ## Scheduling -/

omit [ResourceDescription ρ] in
/-- An action that need not own its gaps is blocked with any of them. -/
theorem keeps_block (a : ActionId) (o : AllocatableAction) (resources : Ref) :
    Keeps (Kept implementations []) (block a o resources : M ρ Unit) fun _ => True := by
  refine (keeps_addSuccessor o a).bind fun _ _ => .bind (.modify fun s h => ?_) fun _ _ =>
    (keeps_setInterval a _ _).bind fun _ _ => keeps_setScheduled a
  exact { h with predecessors := fun b hb => absurd hb List.not_mem_nil }

theorem keeps_scheduleUsingGaps (w : Surroundings ρ) (a : ActionId) :
    Keeps (Kept implementations []) (scheduleUsingGaps w a : M ρ Unit) fun _ => True := by
  refine (keeps_dataStart _).bind fun expectedStart _ => .ite (fun _ => ?_) fun _ => ?_
  · exact (keeps_requirements a).bind fun _ _ => (keeps_copy _).bind fun requirements _ =>
      Keeps.get.bind fun s _ => keeps_block a _ _
  · refine (keeps_requirements a).bind fun _ _ => (keeps_copy _).bind fun constraints hconstraints =>
      (keeps_walkGaps expectedStart hconstraints).bind fun walk hwalk => (keeps_setGaps hwalk.gaps).bind fun _ _ => ?_
    refine .ite (fun _ => ?_) fun _ => ?_
    · refine (keeps_setScheduled a).bind fun _ _ => .bind (.foldlM (S := fun _ => True) (fun g hg start _ => ?_) trivial) fun start _ => ?_
      · exact keeps_addDependency a start (hwalk.predecessors g hg)
      · exact Keeps.get.bind fun s _ => (keeps_setInterval a _ _).bind fun _ _ => (keeps_requirements a).bind fun _ _ =>
          (keeps_copy _).bind fun released hreleased => keeps_addGap hreleased
    · exact (Keeps.forM fun g hg => keeps_addGap (hwalk.predecessors g hg)).bind fun _ _ =>
        (keeps_requirements a).bind fun _ _ => Keeps.get.bind fun s _ => keeps_block a _ _

theorem keeps_scheduleAction (w : Surroundings ρ) (a : ActionId) :
    Keeps (Kept implementations []) (scheduleAction w a : M ρ Unit) fun _ => True := by
  refine Keeps.get.bind fun s _ => ?_
  split
  · exact (keeps_addSuccessor _ a).bind fun _ _ => (keeps_requirements a).bind fun _ _ =>
      (keeps_copy _).bind fun requirements hrequirements => keeps_addPredecessor a hrequirements
  · exact keeps_scheduleUsingGaps w a

/-! ## Unscheduling -/

theorem keeps_holdGaps (a : ActionId) {unassignedResources : Ref} (hr : unassignedResources.IsMade) (gaps : List Gap) :
    Keeps (Kept implementations owners) (holdGaps a unassignedResources gaps : M ρ (List Gap)) AllMade := by
  induction gaps with
  | nil => exact .pure allMade_nil
  | cons pGap predecessors ih =>
    rw [holdGaps]
    split
    · refine .ite (fun _ => ?_) fun _ => ?_
      · exact (keeps_removeSuccessor _ a).bind fun _ _ => ih
      · exact (keeps_copy _).bind fun held hheld => (keeps_reduceDynamic hr _).bind fun _ _ =>
          (keeps_removeSuccessor _ a).bind fun _ _ => ih.bind fun resources hresources =>
            .pure (allMade_cons.mpr ⟨hheld, hresources⟩)
    · exact ih

theorem keeps_cover (a : ActionId) {resToCover : Ref} (hr : resToCover.IsMade) (hgaps : AllMade gaps) :
    Keeps (Kept implementations owners) (cover a resToCover gaps : M ρ (List Gap)) AllMade := by
  induction gaps with
  | nil => exact .pure allMade_nil
  | cons availableGap resources ih =>
    obtain ⟨hgap, hrest⟩ := allMade_cons.mp hgaps
    have hone : AllMade [availableGap] := allMade_cons.mpr ⟨hgap, allMade_nil⟩
    refine (keeps_reduceCommonDynamics hgap hr).bind fun used hused => (keeps_isDynamicUseless _).bind fun c _ => ?_
    refine .ite (fun _ => (ih hrest).bind fun rest h => .pure (allMade_cons.mpr ⟨hgap, h⟩)) fun _ => ?_
    refine (keeps_link a hused).bind fun _ _ => (keeps_isDynamicUseless _).bind fun useless _ =>
      (keeps_isDynamicUseless _).bind fun covered _ => ?_
    have hkept : AllMade (if useless then [] else [availableGap]) := by
      split
      · exact allMade_nil
      · exact hone
    refine .ite (fun _ => .pure (hkept.append hrest)) fun _ => ?_
    exact (ih hrest).bind fun rest h => .pure (hkept.append h)

/-- A successor whose predecessors have descriptions of their own. -/
theorem keeps_coverSuccessor (a : ActionId) {resources : List Gap × List ActionId} (hresources : AllMade resources.1)
    {successor : ActionId} (hsuccessor : successor ∈ owners) :
    Keeps (Kept implementations owners) (coverSuccessor a resources successor : M ρ (List Gap × List ActionId))
      fun x => AllMade x.1 := by
  refine (keeps_removePredecessor _ _).bind fun toCover htoCover => .bind (Q := AllMade) ?_ fun covered hcovered =>
    (keeps_isExecutable _).bind fun c _ => .ite (fun _ => .pure hcovered) fun _ => .pure hcovered
  cases toCover with
  | none => exact .pure hresources
  | some toCover => exact keeps_cover successor (htoCover hsuccessor toCover rfl) hresources

/-! The successors of the action are those it had before. -/

section
omit [ResourceDescription ρ]
variable {P : MOSchedulingInformation → Prop}

theorem infoHas_setInfo (o : AllocatableAction) {f : MOSchedulingInformation → MOSchedulingInformation}
    (hf : ∀ i, P i → P (f i)) : Keeps (InfoHas P a) (setInfo o f : M ρ Unit) fun _ => True := by
  refine .modify fun s h => ?_
  rw [InfoHas] at h ⊢
  by_cases ho : AllocatableAction.action a = o
  · subst ho
    simpa using hf _ h
  · simpa [Function.update_of_ne ho] using h

theorem infoHas_read (r : Ref) : Keeps (InfoHas P a) (read r : M ρ ρ) fun _ => True :=
  Keeps.get.bind fun _ _ => .pure trivial

theorem successorsIn_removeSuccessor (o : AllocatableAction) (b : ActionId) :
    Keeps (InfoHas (SuccessorsIn owners) a) (removeSuccessor o b : M ρ Unit) fun _ => True :=
  infoHas_setInfo o fun _ h c hc => h c (List.mem_of_mem_erase hc)

end

section
variable {P : MOSchedulingInformation → Prop}

theorem infoHas_copy (r : Ref) : Keeps (InfoHas P a) (copy r : M ρ Ref) fun _ => True :=
  (infoHas_read r).bind fun _ _ => Keeps.get.bind fun _ _ => .bind (.modify fun _ h => h) fun _ _ => .pure trivial

theorem infoHas_reduceDynamic (r rd : Ref) : Keeps (InfoHas P a) (reduceDynamic r rd : M ρ Unit) fun _ => True :=
  (infoHas_read r).bind fun _ _ => (infoHas_read rd).bind fun _ _ => .modify fun _ h => h

end

theorem successorsIn_holdGaps (unassignedResources : Ref) (gaps : List Gap) :
    Keeps (InfoHas (SuccessorsIn owners) a) (holdGaps a unassignedResources gaps : M ρ (List Gap)) fun _ => True := by
  induction gaps with
  | nil => exact .pure trivial
  | cons pGap predecessors ih =>
    rw [holdGaps]
    split
    · refine .ite (fun _ => ?_) fun _ => ?_
      · exact (successorsIn_removeSuccessor _ a).bind fun _ _ => ih
      · exact (infoHas_copy _).bind fun _ _ => (infoHas_reduceDynamic _ _).bind fun _ _ =>
          (successorsIn_removeSuccessor _ a).bind fun _ _ => ih.bind fun _ _ => .pure trivial
    · exact ih

/-- An action is unscheduled whose successors are owners. -/
theorem leads_unscheduleAction (a : ActionId) (assignedHere : Bool) :
    Leads (fun s => Kept implementations owners s ∧ InfoHas (SuccessorsIn owners) a s) (Kept implementations owners)
      (unscheduleAction a assignedHere : M ρ (Option (List ActionId))) fun _ => True := by
  have hgive : ∀ s, Kept implementations owners s ∧ InfoHas (SuccessorsIn owners) a s → Kept implementations owners s :=
    fun s h => h.1
  have hinfo : ∀ o, Keeps (fun s => Kept implementations owners s ∧ InfoHas (SuccessorsIn owners) a s)
      (getInfo o : M ρ MOSchedulingInformation) fun _ => True := fun o => Keeps.get.bind fun _ _ => .pure trivial
  refine Leads.bind (hinfo _) fun i _ => .ite (fun _ => ?_) fun _ => ?_
  · exact Leads.bind ((keeps_unscheduled a).leads hgive) fun _ _ => Keeps.pure trivial
  · refine Leads.bind (Keeps.get.bind fun _ _ => .pure (Q := fun _ => True) trivial) fun requirements _ => ?_
    refine Leads.bind ((keeps_copy _).and (infoHas_copy _)) fun unassigned hunassigned => ?_
    refine Leads.bind ((keeps_holdGaps a hunassigned.1 _).and (successorsIn_holdGaps _ _)) fun held hheld => ?_
    refine Leads.bind ((keeps_clearPredecessors a).and (infoHas_setInfo _ fun _ h => h)) fun _ _ => ?_
    refine Leads.bind (Keeps.get.bind fun s hs => .pure (Q := SuccessorsIn owners) hs.2) fun i hi => ?_
    -- from here on, what matters is that the successors are owners
    refine Keeps.leads ?_ hgive
    have hall : AllMade (held ++ [⟨minTime, maxTime, none, unassigned⟩]) :=
      hheld.1.append (allMade_cons.mpr ⟨hunassigned.1, allMade_nil⟩)
    refine (Keeps.foldlM (S := fun x => AllMade x.1) (fun b hb x hx => keeps_coverSuccessor a hx (hi b hb)) hall).bind
      fun covered hcovered => ?_
    refine (keeps_unscheduled a).bind fun _ _ => Keeps.get.bind fun s hs => (keeps_setGaps (hs.gaps.filter _)).bind fun _ _ => ?_
    exact (Keeps.forM fun g hg => keeps_addGap (hcovered g hg)).bind fun _ _ => .pure trivial

/-! ## The state of an optimisation -/

section
omit [ResourceDescription ρ]

/-- The state is changed, and gains no gap that is not made. -/
theorem keeps_setState {f : LocalOptimizationState → LocalOptimizationState}
    (hgaps : ∀ s, AllMade s.gaps → AllMade (f s).gaps)
    (hmissing : ∀ s, (∀ r ∈ s.missingResources, r.IsMade) → ∀ r ∈ (f s).missingResources, r.IsMade) :
    Keeps (Kept implementations owners) (setState f : M ρ Unit) fun _ => True :=
  .modify fun _ h => { h with
    stateGaps := hgaps _ h.stateGaps
    missingResources := hmissing _ h.missingResources }

/-- Its gaps and what is missing stay as they are. -/
theorem keeps_setState_of_eq {f : LocalOptimizationState → LocalOptimizationState}
    (hf : ∀ s, (f s).gaps = s.gaps ∧ (f s).missingResources = s.missingResources) :
    Keeps (Kept implementations owners) (setState f : M ρ Unit) fun _ => True :=
  keeps_setState (fun s h => (hf s).1 ▸ h) fun s h => (hf s).2 ▸ h

theorem keeps_getState :
    Keeps (Kept implementations owners) (getState : M ρ LocalOptimizationState)
      fun s => AllMade s.gaps ∧ ∀ r ∈ s.missingResources, r.IsMade :=
  Keeps.get.bind fun _ h => .pure ⟨h.stateGaps, h.missingResources⟩

theorem keeps_getActionStartTime :
    Keeps (Kept implementations owners) (getActionStartTime : M ρ Int) fun _ => True :=
  Keeps.get.bind fun _ _ => .pure trivial

end

theorem keeps_newState (updateId : Int) : Keeps (Kept implementations owners) (newState updateId : M ρ Unit) fun _ => True :=
  (keeps_copy _).bind fun _ hrd => keeps_newOptimizationAction.bind fun _ _ => keeps_newOptimizationAction.bind fun _ _ =>
    keeps_setState (fun _ _ => allMade_cons.mpr ⟨hrd, allMade_nil⟩) fun _ _ _ hr => nomatch hr

theorem keeps_reserveGaps {requirements : Ref} (hr : requirements.IsMade) (startTime : Int) (hgaps : AllMade gaps) :
    Keeps (Kept implementations owners) (reserveGaps requirements startTime gaps : M ρ (List Gap × List Gap))
      fun x => AllMade x.1 ∧ AllMade x.2 ∧ EndAt startTime x.2 := by
  induction gaps with
  | nil => exact .pure ⟨allMade_nil, allMade_nil, by simp [EndAt]⟩
  | cons g gaps ih =>
    obtain ⟨hg, hrest⟩ := allMade_cons.mp hgaps
    refine (keeps_isDynamicUseless _).bind fun c _ => .ite (fun _ => .pure ⟨hgaps, allMade_nil, by simp [EndAt]⟩) fun _ => ?_
    refine (keeps_reduceCommonDynamics hg hr).bind fun reduction hreduction =>
      (keeps_isDynamicUseless _).bind fun c _ => .ite (fun _ => ?_) fun _ => ?_
    · exact (ih hrest).bind fun x hx => .pure ⟨allMade_cons.mpr ⟨hg, hx.1⟩, hx.2⟩
    · refine (keeps_isDynamicUseless _).bind fun useless _ => (ih hrest).bind fun x hx => .pure ⟨?_, ?_, ?_⟩
      · refine AllMade.append ?_ hx.1
        split
        · exact allMade_nil
        · exact allMade_cons.mpr ⟨hg, allMade_nil⟩
      · exact allMade_cons.mpr ⟨hreduction, hx.2.1⟩
      · exact List.forall_mem_cons.mpr ⟨rfl, hx.2.2⟩

theorem keeps_reserveResources (resources : Ref) (startTime : Int) :
    Keeps (Kept implementations owners) (reserveResources resources startTime : M ρ (List Gap))
      fun tmpGaps => AllMade tmpGaps ∧ EndAt startTime tmpGaps :=
  (keeps_copy _).bind fun _ hr => keeps_getState.bind fun _ hs => (keeps_reserveGaps hr startTime hs.1).bind fun _ hx =>
    (keeps_setState (by exact fun _ _ => hx.1) (by exact fun _ h => h)).bind fun _ _ => .pure hx.2

theorem keeps_takeFromMissing {missingResources : Ref} (hr : missingResources.IsMade) (g : Gap) :
    Keeps (Kept implementations owners) (takeFromMissing missingResources g : M ρ Unit) fun _ => True :=
  (keeps_copy _).bind fun _ hempty => (keeps_setState_of_eq (by exact fun _ => ⟨rfl, rfl⟩)).bind fun _ _ =>
    (keeps_reduceCommonDynamics hempty hr).bind fun _ _ => .pure trivial

theorem keeps_releaseResources (expectedStart : Int) (a : ActionId) :
    Keeps (Kept implementations owners) (releaseResources expectedStart a : M ρ Unit) fun _ => True := by
  refine (keeps_requirements a).bind fun _ _ => (keeps_copy _).bind fun released hreleased =>
    (keeps_setState (by exact fun s hs => hs.append (allMade_cons.mpr ⟨hreleased, allMade_nil⟩)) (by exact fun _ h => h)).bind
      fun _ _ =>
    keeps_getState.bind fun s hs => ?_
  split
  · next missingResources hmissing => exact keeps_takeFromMissing (hs.2 _ hmissing) _
  · exact .pure trivial

theorem keeps_searchGaps {missingResources : Ref} (hr : missingResources.IsMade) (gaps : List Gap) :
    Keeps (Kept implementations owners) (searchGaps missingResources gaps : M ρ Unit) fun _ => True := by
  induction gaps with
  | nil => exact .pure trivial
  | cons gap gaps ih =>
    exact (keeps_takeFromMissing hr gap).bind fun _ _ => (keeps_isDynamicUseless _).bind fun _ _ =>
      .ite (fun _ => .pure trivial) fun _ => ih

theorem keeps_replaceAction (action : Option ActionId) :
    Keeps (Kept implementations owners) (replaceAction action : M ρ Unit) fun _ => True := by
  cases action with
  | none => exact keeps_setState (fun _ h => h) fun _ _ _ hr => nomatch hr
  | some a =>
    exact (keeps_requirements a).bind fun _ _ => (keeps_copy _).bind fun missingResources hr =>
      (keeps_setState (by exact fun _ h => h) (by rintro _ _ _ ⟨⟩; exact hr)).bind fun _ _ =>
      keeps_getState.bind fun s hs => keeps_searchGaps hr _

theorem keeps_canActionRun : Keeps (Kept implementations owners) (canActionRun : M ρ Bool) fun _ => True := by
  refine keeps_getState.bind fun s hs => ?_
  split
  · exact keeps_isDynamicUseless _
  · exact .pure trivial

/-! ## Actions that wait -/

section
omit [ResourceDescription ρ]
variable (w : Surroundings ρ)

theorem keeps_offerReady (a : ActionId) : Keeps (Kept implementations owners) (offerReady a : M ρ Unit) fun _ => True :=
  Keeps.get.bind fun _ _ => keeps_setState_of_eq fun _ => ⟨rfl, rfl⟩

theorem keeps_offerSelectable (a : ActionId) :
    Keeps (Kept implementations owners) (offerSelectable w a) fun _ => True :=
  (keeps_getInfo _).bind fun _ _ => .ite (fun _ => keeps_setState_of_eq fun _ => ⟨rfl, rfl⟩) fun _ => .pure trivial

theorem keeps_selectable : Keeps (Kept implementations owners) (selectable : M ρ (List ActionId)) fun _ => True :=
  Keeps.get.bind fun _ _ => .pure trivial

theorem keeps_peek : Keeps (Kept implementations owners) (peek : M ρ (Option ActionId)) fun _ => True :=
  keeps_selectable.bind fun _ _ => (keeps_setState_of_eq (by exact fun _ => ⟨rfl, rfl⟩)).bind fun _ _ => .pure trivial

theorem keeps_pollSelectable : Keeps (Kept implementations owners) (pollSelectable : M ρ Unit) fun _ => True :=
  keeps_selectable.bind fun _ _ => keeps_setState_of_eq fun _ => ⟨rfl, rfl⟩

theorem keeps_removeFirst (coreId : Option Nat) :
    Keeps (Kept implementations owners) (removeFirst w coreId) fun _ => True :=
  keeps_setState_of_eq fun _ => ⟨rfl, rfl⟩

theorem keeps_progressOnTime (time : Int) :
    Keeps (Kept implementations owners) (progressOnTime w time) fun _ => True :=
  Keeps.get.bind fun _ _ => (keeps_setState_of_eq (by exact fun _ => ⟨rfl, rfl⟩)).bind fun _ _ =>
    .forM fun a _ => keeps_offerSelectable w a

theorem keeps_releaseSuccessor (timeLimit : Int) (successor : ActionId) :
    Keeps (Kept implementations owners) (releaseSuccessor w timeLimit successor) fun _ => True := by
  refine Keeps.get.bind fun s _ => (keeps_setInfo_of_eq _ (by exact fun _ => rfl)).bind fun _ _ => .ite (fun _ => ?_) fun _ => .pure trivial
  exact .ite (fun _ => keeps_offerSelectable w _) fun _ => keeps_offerReady _

theorem keeps_releaseDataSuccessors (a : ActionId) (timeLimit : Int) :
    Keeps (Kept implementations owners) (releaseDataSuccessors w a timeLimit) fun _ => True :=
  (keeps_getInfo _).bind fun _ _ => (Keeps.forM fun b _ => keeps_releaseSuccessor w timeLimit b).bind fun _ _ =>
    keeps_setInfo_of_eq _ fun _ => rfl

end

theorem keeps_blockedAction (o : AllocatableAction) (a : ActionId) :
    Keeps (Kept implementations owners) (blockedAction o a : M ρ Unit) fun _ => True :=
  (keeps_addSuccessor o a).bind fun _ _ => (keeps_requirements a).bind fun _ _ => (keeps_copy _).bind fun _ hr =>
    keeps_addPredecessor a hr

theorem keeps_blockDataSuccessors (depth : Nat) (a : ActionId) :
    Keeps (Kept implementations owners) (blockDataSuccessors depth a : M ρ Unit) fun _ => True := by
  induction depth generalizing a with
  | zero => exact .pure trivial
  | succ depth ih =>
    refine (keeps_getInfo _).bind fun i _ => .forM fun b _ => (keeps_getInfo _).bind fun j _ =>
      .ite (fun _ => ?_) fun _ => .pure trivial
    exact (keeps_clearPredecessors b).bind fun _ _ => (keeps_clearSuccessors _).bind fun _ _ =>
      keeps_getState.bind fun _ _ => (keeps_blockedAction _ b).bind fun _ _ => (ih b).bind fun _ _ =>
      (keeps_setInterval b _ _).bind fun _ _ => keeps_setOnOptimization b _

theorem keeps_classifyAction (w : Surroundings ρ) (a : ActionId) (hasInternal hasExternal hasResourcePredecessors : Bool)
    (startTime : Int) :
    Keeps (Kept implementations owners) (classifyAction w a hasInternal hasExternal hasResourcePredecessors startTime)
      fun _ => True := by
  refine .ite (fun _ => .ite (fun _ => .ite (fun _ => ?_) fun _ => .ite (fun _ => ?_) fun _ => ?_)
    fun _ => .ite (fun _ => ?_) fun _ => ?_) fun _ => .pure trivial
  · exact keeps_offerSelectable w a
  · exact keeps_getState.bind fun _ _ => keeps_blockedAction _ a
  · exact keeps_offerReady a
  · exact keeps_offerSelectable w a
  · exact keeps_setState_of_eq fun _ => ⟨rfl, rfl⟩

theorem keeps_classify (w : Surroundings ρ) (c : Classified) :
    Keeps (Kept implementations owners) (classify w c) fun _ => True :=
  (Keeps.forM fun _ _ => keeps_setInfo_of_eq _ (by exact fun _ => rfl)).bind fun _ _ =>
    (keeps_setInfo_of_eq _ (by exact fun _ => rfl)).bind fun _ _ => keeps_classifyAction w _ _ _ _ _

/-! ## Events -/

section
variable (w : Surroundings ρ)

omit [ResourceDescription ρ] in
theorem keeps_getExpectedEnd (a : ActionId) (expectedStart : Int) :
    Keeps (Kept implementations owners) (getExpectedEnd w a expectedStart) fun _ => True :=
  Keeps.get.bind fun _ _ => .pure trivial

/-- The gaps that were taken end when the action starts, so that none is filled. -/
theorem keeps_processStart (depth : Nat) (expectedTimeStamp : Int) (a : ActionId) :
    Keeps (Kept implementations owners) (processStart w depth expectedTimeStamp a) fun _ => True := by
  refine (keeps_getExpectedEnd w a _).bind fun _ _ => (keeps_setInterval a _ _).bind fun _ _ =>
    (keeps_clearPredecessors a).bind fun _ _ => (keeps_clearSuccessors _).bind fun _ _ => (keeps_requirements a).bind fun _ _ =>
    (keeps_reserveResources _ _).bind fun tmpGaps htmp => .bind (.forM fun tmpGap hmem => ?_) fun _ _ => .pure trivial
  rw [if_pos (htmp.2 tmpGap hmem).symm]
  exact keeps_link a (htmp.1 tmpGap hmem)

theorem keeps_processResourceBlocked (depth : Nat) (a : ActionId) :
    Keeps (Kept implementations owners) (processResourceBlocked depth a : M ρ Unit) fun _ => True :=
  (keeps_setOnOptimization a _).bind fun _ _ => (keeps_clearPredecessors a).bind fun _ _ =>
    (keeps_clearSuccessors _).bind fun _ _ => (keeps_setInterval a _ _).bind fun _ _ => keeps_getState.bind fun _ _ =>
    (keeps_blockedAction _ a).bind fun _ _ => keeps_blockDataSuccessors depth a

theorem keeps_startTops (depth : Nat) (a : ActionId) (n : Nat) (currentTop : Option ActionId) :
    Keeps (Kept implementations owners) (startTops w depth a n currentTop) fun _ => True := by
  induction n generalizing currentTop with
  | zero => exact .pure trivial
  | succ n ih =>
    cases currentTop with
    | none => exact .pure trivial
    | some currentTop =>
      refine keeps_canActionRun.bind fun c _ => .ite (fun _ => ?_) fun _ => .pure trivial
      refine (keeps_removeFirst w _).bind fun _ _ => (keeps_setToReschedule _ _).bind fun _ _ => ?_
      have hnext : ∀ enabledEvents, Keeps (Kept implementations owners) (do
          let currentTop ← peek
          replaceAction currentTop
          let more ← startTops w depth a n currentTop
          return enabledEvents ++ more) fun _ => True := fun enabledEvents =>
        keeps_peek.bind fun top _ => (keeps_replaceAction top).bind fun _ _ => (ih top).bind fun _ _ => .pure trivial
      refine .ite (fun _ => ?_) fun _ => ?_
      · exact keeps_getActionStartTime.bind fun _ _ => (keeps_processStart w depth _ _).bind fun enabled _ => hnext enabled
      · exact (keeps_processResourceBlocked depth _).bind fun _ _ => hnext []

theorem keeps_processEnd (n : Nat) (expectedTimeStamp : Int) (a : ActionId) :
    Keeps (Kept implementations owners) (processEnd w n expectedTimeStamp a) fun _ => True := by
  refine (keeps_setOnOptimization a _).bind fun _ _ => (keeps_progressOnTime w _).bind fun _ _ =>
    (keeps_releaseDataSuccessors w a _).bind fun _ _ => keeps_peek.bind fun currentTop _ => keeps_getState.bind fun s _ => ?_
  have hnext : Keeps (Kept implementations owners) (do
      releaseResources expectedTimeStamp a
      startTops w n a n currentTop) fun _ => True :=
    (keeps_releaseResources _ a).bind fun _ _ => keeps_startTops w n a n currentTop
  exact .ite (fun _ => (keeps_replaceAction _).bind fun _ _ => hnext) fun _ => hnext

theorem keeps_process (n : Nat) (e : SchedulingEvent) :
    Keeps (Kept implementations owners) (process w n e) fun _ => True := by
  cases e with
  | Start t a => exact keeps_processStart w n t a
  | End t a => exact keeps_processEnd w n t a

/-! ## Rescheduling -/

theorem keeps_manageRunningAction (a : ActionId) :
    Keeps (Kept implementations owners) (manageRunningAction w a) fun _ => True :=
  Keeps.get.bind fun _ _ => (keeps_setInterval a _ _).bind fun _ _ => (keeps_clearPredecessors a).bind fun _ _ =>
    (keeps_clearSuccessors _).bind fun _ _ => (keeps_setToReschedule a _).bind fun _ _ =>
    (keeps_requirements a).bind fun _ _ => (keeps_reserveResources _ _).bind fun _ _ => .pure trivial

theorem keeps_tryToLaunch (a : ActionId) : Keeps (Kept implementations []) (tryToLaunch w a) fun _ => True := by
  rw [tryToLaunch]
  split
  · exact .pure trivial
  · exact (keeps_assignImplementation a _).bind fun _ _ =>
      .ite (fun _ => (keeps_scheduleAction w a).bind fun _ _ => .pure trivial) fun _ => .pure trivial

theorem keeps_manageRunningActions (queue : List SchedulingEvent) (a : ActionId) :
    Keeps (Kept implementations owners) (manageRunningActions w queue a) fun _ => True :=
  (keeps_manageRunningAction w a).bind fun _ _ => (keeps_getInfo _).bind fun _ _ => .pure trivial

theorem keeps_launchActions (gapResource : Ref) (n : Nat) (queue : List SchedulingEvent) :
    Keeps (Kept implementations []) (launchActions w gapResource n queue) fun _ => True := by
  induction n generalizing queue with
  | zero => exact .pure trivial
  | succ n ih =>
    refine (keeps_isDynamicUseless _).bind fun useless _ => keeps_getState.bind fun s _ =>
      .ite (fun _ => .pure trivial) fun _ => keeps_peek.bind fun top _ => (keeps_replaceAction top).bind fun _ _ => ?_
    cases top with
    | none => exact .pure trivial
    | some top =>
      refine keeps_canActionRun.bind fun c _ => .ite (fun _ => ?_) fun _ => .pure trivial
      exact keeps_pollSelectable.bind fun _ _ => (keeps_clearPredecessors top).bind fun _ _ =>
        (keeps_manageRunningAction w top).bind fun _ _ => (keeps_tryToLaunch w top).bind fun _ _ =>
        (keeps_getInfo _).bind fun _ _ => ih _

theorem keeps_processAll (depth n : Nat) (queue : List SchedulingEvent) :
    Keeps (Kept implementations owners) (processAll w depth n queue) fun _ => True := by
  induction n generalizing queue with
  | zero => exact .pure trivial
  | succ n ih =>
    cases queue with
    | cons e queue => exact (keeps_process w depth e).bind fun _ _ => ih _
    | nil =>
      refine keeps_getState.bind fun s _ => ?_
      split
      · exact (keeps_setState_of_eq (by exact fun _ => ⟨rfl, rfl⟩)).bind fun _ _ => (keeps_setToReschedule _ _).bind fun _ _ =>
          (keeps_getInfo _).bind fun _ _ => ih _
      · exact .pure trivial

theorem keeps_rescheduleTasks (n : Nat) : Keeps (Kept implementations []) (rescheduleTasks w n) fun _ => True := by
  refine keeps_getState.bind fun s _ => ?_
  split
  · exact .pure trivial
  · refine keeps_getState.bind fun t _ => (Keeps.foldlM (S := fun _ => True)
      (fun a _ queue _ => keeps_manageRunningActions w queue a) trivial).bind fun queue _ =>
      (keeps_launchActions w _ n queue).bind fun queue _ => (keeps_processAll w n n queue).bind fun returned _ => ?_
    exact .ite (fun _ => .bind (.modify fun _ h => { h with }) fun _ _ => .pure trivial) fun _ => .pure trivial

/-! ## Optimisations -/

omit [ResourceDescription ρ] in
theorem keeps_beginOptimization : Keeps (Kept implementations owners) (beginOptimization : M ρ Unit) fun _ => True :=
  keeps_newOptimizationAction.bind fun _ _ => .modify fun _ h => { h with }

theorem keeps_optimize (updateId : Int) (actions : List Classified) (n : Nat) :
    Keeps (Kept implementations []) (optimize w updateId actions n) fun _ => True := by
  refine (keeps_newState updateId).bind fun _ _ => Keeps.get.bind fun s _ => ?_
  have hnext : Keeps (Kept implementations []) (do
      actions.forM (classify w)
      let _ ← rescheduleTasks w n) fun _ => True :=
    (Keeps.forM fun c _ => keeps_classify w c).bind fun _ _ => (keeps_rescheduleTasks w n).bind fun _ _ => .pure trivial
  split
  · exact (keeps_clearSuccessors _).bind fun _ _ => hnext
  · exact hnext

theorem keeps_endOptimization : Keeps (Kept implementations []) (endOptimization w) fun _ => True := by
  refine Keeps.get.bind fun s _ => ?_
  split
  · refine keeps_getState.bind fun state hstate => (keeps_setGaps hstate.1).bind fun _ _ => (keeps_getInfo _).bind fun _ _ =>
      .bind (.forM fun a _ => ?_) fun _ _ => (keeps_clearSuccessors _).bind fun _ _ => .modify fun _ h => { h with }
    exact (keeps_removePredecessor a _).bind fun _ _ => keeps_scheduleUsingGaps w a
  · exact .pure trivial

end

end

/-! ## Runs -/

/-- When an action is unscheduled, none of its successors has a gap among its
predecessors that refers to requirements: none was blocked for lack of resources
while it had other predecessors, or was a successor already. -/
def NoneShared (s : MOResourceScheduler ρ) : Label ρ → Prop
  | .unscheduleAction a _ =>
    ∀ b ∈ (s.info (.action a)).resourceSuccessors, AllMade (s.info (.action b)).resourcePredecessors
  | _ => True

instance (s : MOResourceScheduler ρ) : DecidablePred (NoneShared s)
  | .unscheduleAction a _ =>
    inferInstanceAs (Decidable
      (∀ b ∈ (s.info (.action a)).resourceSuccessors, AllMade (s.info (.action b)).resourcePredecessors))
  | .scheduleAction _ _ _ | .beginOptimization | .rescheduleTasks _ _ _ _ | .endOptimization _ => isTrue trivial

section
variable [ResourceDescription ρ] {implementations : ImplementationId → ρ} {s : MOResourceScheduler ρ}

theorem Kept.perform (h : Kept implementations [] s) {l : Label ρ} (hl : NoneShared s l) :
    Kept implementations [] ((perform l).run s).2 := by
  cases l with
  | scheduleAction w a implementation =>
    exact (((keeps_assignImplementation a _).bind fun _ _ => keeps_scheduleAction w a) s h).1
  | unscheduleAction a assignedHere =>
    -- the owners are the successors
    have howners : Kept implementations (s.info (.action a)).resourceSuccessors s := { h with predecessors := hl }
    have hkept := leads_unscheduleAction a assignedHere s ⟨howners, fun b hb => hb⟩
    exact { hkept.1 with predecessors := fun b hb => absurd hb List.not_mem_nil }
  | beginOptimization => exact (keeps_beginOptimization s h).1
  | rescheduleTasks w updateId actions n => exact (keeps_optimize w updateId actions n s h).1
  | endOptimization w => exact (keeps_endOptimization w s h).1

theorem kept_init (implementations : ImplementationId → ρ) (worker : ρ) :
    Kept implementations [] (init implementations worker) where
  given := rfl
  gaps := allMade_cons.mpr ⟨trivial, allMade_nil⟩
  stateGaps := allMade_nil
  missingResources _ hr := nomatch hr
  predecessors a ha := absurd ha List.not_mem_nil

/-- Planning leaves the requirements of all implementations as they are. -/
theorem requirements_kept (implementations : ImplementationId → ρ) (worker : ρ) {labels : List (Label ρ)}
    (h : Along step NoneShared (init implementations worker) labels) :
    Always step (fun s => s.memory.given = implementations) (init implementations worker) labels := by
  refine always_of_along (fun s hs => hs.given) (fun s l t hs hl ht => ?_) (kept_init implementations worker) h
  cases ht
  exact hs.perform hl

end

/-! ## A worker with four connections -/

def exampleConnections (connections : Int) : ServiceResourceDescription := ⟨"S", "N", "P", connections⟩

/-- The first implementation needs all of them, the others need three. -/
def exampleImplementations (i : ImplementationId) : ServiceResourceDescription :=
  exampleConnections (if i = 0 then 4 else 3)

/-- The third action keeps what it has. -/
def exampleSurroundings : Surroundings ServiceResourceDescription where
  isToReleaseResources a := a ≠ 2
  coreId _ := some 0
  averageExecutionTime _ := some 10
  startTime _ := none
  dataPredecessors _ := []
  selectedBefore a b := a < b
  canHostDynamic d required := required.connections ≤ d.connections
  tryToLaunch _ := .launched

/-- The second action waits for the first one, and takes its place. -/
theorem requirements_kept_two :
    Always step (fun s => s.memory.given = exampleImplementations) (init exampleImplementations (exampleConnections 4))
      [.scheduleAction exampleSurroundings 0 0, .scheduleAction exampleSurroundings 1 1, .unscheduleAction 0 true] := by
  refine requirements_kept exampleImplementations (exampleConnections 4) ?_
  refine fun t ht => ⟨trivial, fun u hu => ⟨trivial, fun v hv => ⟨?_, trivial⟩⟩⟩
  rw [← Option.some.inj hu, ← Option.some.inj ht]
  decide +kernel

/-- The third action takes all that the others give back. So the second one is
blocked when it is scheduled again, and is covered when the first is unscheduled. -/
def scheduledAgain : List (Label ServiceResourceDescription) :=
  [.scheduleAction exampleSurroundings 0 0, .scheduleAction exampleSurroundings 1 1,
    .scheduleAction exampleSurroundings 2 0, .scheduleAction exampleSurroundings 1 1, .unscheduleAction 0 true]

theorem requirements_reduced :
    ¬ Always step (fun s => s.memory.given = exampleImplementations)
      (init exampleImplementations (exampleConnections 4)) scheduledAgain := by
  intro h
  have hread : (run step (init exampleImplementations (exampleConnections 4)) scheduledAgain).map
      (fun s => (s.memory.given 1).connections) = some 0 := by decide +kernel
  obtain ⟨s, hs, hconnections⟩ := Option.map_eq_some_iff.mp hread
  rw [h.of_run hs] at hconnections
  exact absurd hconnections (by decide)

end Compss.MultiObjective.ByReference
