/-
The two constructors of `MethodResourceDescription` that read constraints: from
the string of the Python binding, and from the arrays of the C binding.

Both fill in a processor from constraints that stand alone, beside those of a
list of processors. Python adds it when all are read. C goes on filling in the
last processor of the list, which has been added and counted by then:
`constraints_wellFormed_iff` says when its counts are right all the same.

What the platform answers is a parameter: the environment, the letters of its
locale and its numbers, where none is an exception.
-/
import Compss.Lib.Text
import Compss.Resources.ComputingUnits
import Compss.Resources.DynamicMethodWorker

namespace Compss.Resources

open Lib Lib.Text

structure Platform (φ : Type) where
  loadFromEnvironment : Text → Option Text
  toLowerCase : Text → Text
  toUpperCase : Text → Text
  /-- `Float.valueOf`. -/
  floatValueOf : Text → Option φ
  /-- `Integer.valueOf`. -/
  integerValueOf : Text → Option Int

/-! ## Texts -/

/-- `trim`. -/
def trim (s : Text) : Text :=
  (((s.dropWhile (· ≤ ' ')).reverse).dropWhile (· ≤ ' ')).reverse

/-- The first two parts of an item, without the blanks around them; none when
there are no two. -/
def keyAndValue (sep : Char) (item : Text) : Option (Text × Text) :=
  match fields sep item with
  | key :: val :: _ => some (trim key, trim val)
  | _ => none

/-- What stands between the next `{` and the `}` after it, and so on; what has
been read of an item is kept in reverse. -/
def itemsFrom : Option Text → Text → List Text
  | _, [] => []
  | none, c :: s => if c = '\x7b' then itemsFrom (some []) s else itemsFrom none s
  | some item, c :: s => if c = '\x7d' then item.reverse :: itemsFrom none s else itemsFrom (some (c :: item)) s

/-- The items of a list; none when it is not one, or a `}` comes first. -/
def listItems (s : Text) : List Text :=
  if s.head? = some '[' ∧ s.getLast? = some ']' ∧ '\x7d' ∉ s.takeWhile (· ≠ '\x7b') then itemsFrom none s else []

/-- `replace(w, "")`; so many characters are of an occurrence that has begun. -/
def removeWord (w : Text) : Nat → Text → Text
  | _, [] => []
  | n + 1, _ :: s => removeWord w n s
  | 0, c :: s => if w.isPrefixOf (c :: s) then removeWord w (w.length - 1) s else c :: removeWord w 0 s

/-! ## The constructors -/

/-- A processor that is filled in, and whether one of its setters has told so. -/
structure Draft (φ : Type) where
  proc : Processor φ
  modified : Bool

namespace Draft

variable {φ : Type}

def new [JavaFloat φ] : Draft φ := ⟨.new, false⟩

def set (change : Processor φ → Processor φ) (s : Draft φ) : Draft φ := ⟨change s.proc, true⟩

def setComputingUnits (cu : Int) (s : Draft φ) : Draft φ := s.set (·.setComputingUnits cu)

/-- The only one that does not tell. -/
def setPropValue (propValue : String) (s : Draft φ) : Draft φ :=
  { s with proc := { s.proc with propValue := propValue } }

def isCPU (s : Draft φ) : Bool := s.proc.type = "CPU"

/-- Units that were not set are one. -/
def oneUnit (s : Draft φ) : Draft φ := if s.proc.computingUnits = 0 then s.setComputingUnits 1 else s

end Draft

namespace MethodResourceDescription

variable {φ : Type} [JavaFloat φ] (pf : Platform φ)

/-- The list of values that a text is, unless it stands for no value. -/
def upperValues (val : Text) : List String :=
  if String.ofList val ≠ unassignedStr then (fields ',' val).map fun app => String.ofList (pf.toUpperCase (trim app)) else []

/-- One constraint, for the processor or for the description; one that is not
known is skipped. -/
def addConstraints (key val : Text) (s : Draft φ × MethodResourceDescription φ) :
    Option (Draft φ × MethodResourceDescription φ) := do
  let (proc, d) := s
  let val ← pf.loadFromEnvironment val
  if val = [] then return s
  let str := String.ofList val
  match String.ofList (pf.toLowerCase key) with
  | "processorname" => return (proc.set ({ · with name := str }), d)
  | "processorspeed" => return (proc.set ({ · with speed := ← pf.floatValueOf val }), d)
  | "processorarchitecture" => return (proc.set ({ · with architecture := str }), d)
  | "processortype" => return (proc.set ({ · with type := str }), d)
  | "processorpropertyname" => return (proc.set ({ · with propName := str }), d)
  | "processorpropertyvalue" => return (proc.setPropValue str, d)
  | "processorinternalmemorysize" => return (proc.set ({ · with internalMemory := ← pf.floatValueOf val }), d)
  | "computingunits" => return (proc.setComputingUnits (← pf.integerValueOf val), d)
  | "memorysize" => return (proc, { d with memorySize := ← pf.floatValueOf val })
  | "memorytype" => return (proc, { d with memoryType := str })
  | "storagesize" => return (proc, { d with storageSize := ← pf.floatValueOf val })
  | "storagetype" => return (proc, { d with storageType := str })
  | "operatingsystemtype" => return (proc, { d with operatingSystemType := str })
  | "operatingsystemdistribution" => return (proc, { d with operatingSystemDistribution := str })
  | "operatingsystemversion" => return (proc, { d with operatingSystemVersion := str })
  | "appsoftware" => return (proc, { d with appSoftware := d.appSoftware ++ upperValues pf val })
  | "hostqueues" => return (proc, { d with hostQueues := d.hostQueues ++ upperValues pf val })
  | "wallclocklimit" => return (proc, { d with wallClockLimit := ← pf.integerValueOf val })
  | _ => return s

/-- Items that are a key and a value each. -/
def addItems (sep : Char) (items : List Text) (s : Draft φ × MethodResourceDescription φ) :
    Option (Draft φ × MethodResourceDescription φ) :=
  items.foldlM (fun s item => do
    let (key, val) ← keyAndValue sep item
    addConstraints pf key val s) s

def treatProcessorInList (d : MethodResourceDescription φ) (processor : Text) : Option (MethodResourceDescription φ) := do
  let (proc, d) ← addItems pf ':' (fields ',' processor) (Draft.new, d)
  return d.addProcessor proc.oneUnit.proc

def treatProcessorsList (processors : Text) (d : MethodResourceDescription φ) : Option (MethodResourceDescription φ) :=
  (listItems processors).foldlM (treatProcessorInList pf) d

/-- A constraint of the string; one without a separator is skipped. -/
def readConstraint (s : Draft φ × MethodResourceDescription φ) (c : Text) :
    Option (Draft φ × MethodResourceDescription φ) :=
  if ':' ∈ c then
    let key := trim (c.takeWhile (· ≠ ':'))
    let val := trim ((c.dropWhile (· ≠ ':')).drop 1)
    if key = "processors".toList then (treatProcessorsList pf val s.2).map fun d => (s.1, d)
    else addConstraints pf key val s
  else some s

/-- The processor that stands alone is added, and a CPU if there is none. -/
def addDraft (proc : Draft φ) (d : MethodResourceDescription φ) : MethodResourceDescription φ :=
  if proc.isCPU then
    if proc.modified then d.addProcessor proc.oneUnit.proc
    else if d.totalProcessors .cpu = 0 then d.addProcessor (proc.setComputingUnits 1).proc
    else d
  else
    let d := d.addProcessor proc.oneUnit.proc
    if d.totalProcessors .cpu = 0 then d.addProcessor (Draft.new.setComputingUnits 1).proc else d

/-- `MethodResourceDescription(String)`, for Python constraints. -/
def ofString (description : Option Text) : Option (MethodResourceDescription φ) := do
  let constraints := if description.getD [] = [] then [] else fields ';' (description.getD [])
  let (proc, d) ← constraints.foldlM (readConstraint pf) (Draft.new, new)
  return addDraft proc d

/-- The constraints of each processor of the string. -/
def processorItems (processorString : Option Text) : List (List Text) :=
  (words (· = '@') (processorString.getD [])).map fun processor =>
    fields ' ' ((removeWord "Processor(".toList 0 processor).filter fun c => c ≠ ',' ∧ c ≠ '(' ∧ c ≠ ')')

/-- A processor of the string, which is the last one to be filled in. -/
def addProcessorItems (s : Draft φ × MethodResourceDescription φ) (items : List Text) :
    Option (Draft φ × MethodResourceDescription φ) := do
  let (proc, d) ← addItems pf '=' items (Draft.new, s.2)
  return (proc, d.addProcessor proc.proc)

/-- Constraints besides those of the processors. -/
def looseItems (constraints : List Text) : List Text := if constraints = [[]] then [] else constraints

/-- The last processor of the list is an object that is changed after it has
been added. -/
def setLast (d : MethodResourceDescription φ) (p : Processor φ) : MethodResourceDescription φ :=
  { d with processors := d.processors.set (d.processors.length - 1) p }

/-- `MethodResourceDescription(String[], String)`, for C constraints. -/
def ofArray (constraints : List Text) (processorString : Option Text) : Option (MethodResourceDescription φ) := do
  let (proc, d) ←
    if processorString.getD [] ≠ [] then
      (processorItems processorString).foldlM (addProcessorItems pf) (Draft.new, new)
    else some (Draft.new.setComputingUnits 1, new)
  let (proc, d) ← addItems pf '=' (looseItems constraints) (proc, d)
  let d := if processorString.getD [] ≠ [] then setLast d proc.proc else d.addProcessor proc.proc
  if d.totalProcessors .cpu = 0 then return d.addProcessor (Draft.new.setComputingUnits 1).proc
  return d

/-! ## What a constraint changes -/

structure SameProcessors (d d' : MethodResourceDescription φ) : Prop where
  processors : d'.processors = d.processors
  units : d'.totalComputingUnits = d.totalComputingUnits
  counts : d'.totalProcessors = d.totalProcessors

section
variable {pf : Platform φ} {key val : Text} {s s' : Draft φ} {d d' : MethodResourceDescription φ} {items : List Text}
  {p : Processor φ} {ps : List (Processor φ)} {type : ProcessorType}

omit [JavaFloat φ] in
theorem SameProcessors.refl (d : MethodResourceDescription φ) : SameProcessors d d := ⟨rfl, rfl, rfl⟩

omit [JavaFloat φ] in
theorem SameProcessors.trans {d'' : MethodResourceDescription φ} (h : SameProcessors d d') (h' : SameProcessors d' d'') :
    SameProcessors d d'' :=
  ⟨h'.processors.trans h.processors, h'.units.trans h.units, h'.counts.trans h.counts⟩

theorem addConstraints_same (h : addConstraints pf key val (s, d) = some (s', d')) : SameProcessors d d' := by
  unfold addConstraints at h
  obtain ⟨v, -, hrest⟩ := Option.bind_eq_some_iff.mp h
  dsimp only at hrest
  split at hrest
  · cases hrest
    exact .refl _
  · split at hrest
    all_goals first
      | (cases hrest; exact ⟨rfl, rfl, rfl⟩)
      | (obtain ⟨n, -, he⟩ := Option.bind_eq_some_iff.mp hrest
         cases he
         exact ⟨rfl, rfl, rfl⟩)

/-! ## What a constraint gives -/

/-- The value that a constraint gives, if that is what it is on. -/
def valueOf (pf : Platform φ) (name : String) (key val : Text) : Option Text :=
  (pf.loadFromEnvironment val).filter fun v => v ≠ [] ∧ String.ofList (pf.toLowerCase key) = name

def unitsOf (pf : Platform φ) (key val : Text) : Option Int :=
  (valueOf pf "computingunits" key val).bind pf.integerValueOf

def typeOf (pf : Platform φ) (key val : Text) : Option String :=
  (valueOf pf "processortype" key val).map String.ofList

/-- The last value that the items give. -/
def given {α : Type} (read : Text → Text → Option α) (sep : Char) (items : List Text) : Option α :=
  (items.filterMap fun item => (keyAndValue sep item).bind fun p => read p.1 p.2).getLast?

/-- The processor has the units and the type that are given, or those it had. -/
theorem addConstraints_gives (h : addConstraints pf key val (s, d) = some (s', d')) :
    s'.proc.computingUnits = (unitsOf pf key val).getD s.proc.computingUnits ∧
      s'.proc.type = (typeOf pf key val).getD s.proc.type := by
  unfold addConstraints at h
  cases hload : pf.loadFromEnvironment val with
  | none =>
    rw [hload] at h
    cases h
  | some v =>
    rw [hload] at h
    by_cases hv : v = []
    · simp only [Option.bind_eq_bind, Option.bind_some, if_pos hv, Option.pure_def] at h
      cases h
      simp [unitsOf, typeOf, valueOf, hload, hv, Option.filter_some]
    · simp only [Option.bind_eq_bind, Option.bind_some, if_neg hv, Option.pure_def] at h
      have hvalue : ∀ name, valueOf pf name key val =
          if String.ofList (pf.toLowerCase key) = name then some v else none := fun name => by
        simp [valueOf, hload, Option.filter_some, hv]
      rw [unitsOf, typeOf, hvalue, hvalue]
      split at h
      case h_4 hkey =>
        cases h
        simp [hkey, Draft.set]
      case h_8 hkey =>
        obtain ⟨n, hn, he⟩ := Option.bind_eq_some_iff.mp h
        cases he
        simp [hkey, hn, Draft.setComputingUnits, Draft.set, Processor.setComputingUnits]
      case h_19 htype _ _ _ hunits _ _ _ _ _ _ _ _ _ _ =>
        cases h
        rw [if_neg hunits, if_neg htype]
        exact ⟨rfl, rfl⟩
      all_goals
        next hkey =>
          rw [hkey, if_neg (by decide), if_neg (by decide)]
          first
            | (cases h; exact ⟨rfl, rfl⟩)
            | (obtain ⟨n, -, he⟩ := Option.bind_eq_some_iff.mp h
               cases he
               exact ⟨rfl, rfl⟩)

omit [JavaFloat φ] in
theorem given_cons_getD {α : Type} (read : Text → Text → Option α) (sep : Char) (item : Text) (items : List Text) {p : Text × Text}
    (hp : keyAndValue sep item = some p) (x : α) :
    (given read sep (item :: items)).getD x = (given read sep items).getD ((read p.1 p.2).getD x) := by
  rw [given, given, List.filterMap_cons, hp, Option.bind_some]
  cases read p.1 p.2 with
  | none => rfl
  | some y =>
    rw [List.getLast?_cons]
    cases (items.filterMap fun item => (keyAndValue sep item).bind fun p => read p.1 p.2).getLast? <;> rfl

theorem addItems_gives {sep : Char} (h : addItems pf sep items (s, d) = some (s', d')) :
    s'.proc.computingUnits = (given (unitsOf pf) sep items).getD s.proc.computingUnits ∧
      s'.proc.type = (given (typeOf pf) sep items).getD s.proc.type := by
  induction items generalizing s d with
  | nil =>
    cases h
    exact ⟨rfl, rfl⟩
  | cons item items ih =>
    rw [addItems, List.foldlM_cons] at h
    obtain ⟨⟨t, e⟩, hturn, hrest⟩ := Option.bind_eq_some_iff.mp h
    obtain ⟨p, hp, hitem⟩ := Option.bind_eq_some_iff.mp hturn
    obtain ⟨hunits, htype⟩ := addConstraints_gives hitem
    obtain ⟨hunits', htype'⟩ := ih hrest
    rw [hunits', htype', given_cons_getD _ _ _ _ hp, given_cons_getD _ _ _ _ hp, hunits, htype]
    exact ⟨rfl, rfl⟩

theorem addItems_same {sep : Char} (h : addItems pf sep items (s, d) = some (s', d')) : SameProcessors d d' := by
  induction items generalizing s d with
  | nil =>
    cases h
    exact .refl _
  | cons item items ih =>
    rw [addItems, List.foldlM_cons] at h
    obtain ⟨⟨t, e⟩, hturn, hrest⟩ := Option.bind_eq_some_iff.mp h
    obtain ⟨p, -, hitem⟩ := Option.bind_eq_some_iff.mp hturn
    exact (addConstraints_same hitem).trans (ih hrest)

/-! ## Counting -/

/-- What a processor counts for. -/
def countedUnits (p : Processor φ) : Int := if p.computingUnits > 0 then p.computingUnits else 1

def countedTotal (type : ProcessorType) (ps : List (Processor φ)) : Int :=
  (ps.map fun p => if p.countedType = type then countedUnits p else 0).sum

/-- The totals of a description that is built of processors. -/
structure Tallied (ps : List (Processor φ)) (d : MethodResourceDescription φ) : Prop where
  processors : d.processors = ps
  units : ∀ type, d.totalComputingUnits type = countedTotal type ps
  counts : ∀ type, d.totalProcessors type = ps.countP fun p => p.countedType = type

/-- A description that asks for a CPU and for units of each processor, with
totals that are right. -/
structure WellFormed (d : MethodResourceDescription φ) : Prop where
  cpu : ∃ p ∈ d.processors, p.type = "CPU"
  units : ∀ p ∈ d.processors, 1 ≤ p.computingUnits
  totals : ∀ type, d.totalComputingUnits type = Resources.units type d.processors

omit [JavaFloat φ] in
theorem countedType_eq_cpu : p.countedType = .cpu ↔ p.type = "CPU" := by
  rw [Processor.countedType, ProcessorType.of]
  by_cases h : p.type = "CPU"
  · simp [h]
  · rw [if_neg h]
    refine iff_of_false ?_ h
    split
    · simp
    · split <;> simp

omit [JavaFloat φ] in
theorem countedTotal_append (type : ProcessorType) (ps qs : List (Processor φ)) :
    countedTotal type (ps ++ qs) = countedTotal type ps + countedTotal type qs := by
  simp [countedTotal]

omit [JavaFloat φ] in
theorem countedTotal_eq (type : ProcessorType) (h : ∀ p ∈ ps, 1 ≤ p.computingUnits) :
    countedTotal type ps = units type ps := by
  rw [countedTotal, units, List.map_congr_left fun p hp => ?_]
  have hunits : countedUnits p = p.computingUnits := if_pos (h p hp)
  rw [hunits]

theorem tallied_new : Tallied [] (new : MethodResourceDescription φ) := ⟨rfl, fun _ => rfl, fun _ => rfl⟩

omit [JavaFloat φ] in
theorem Tallied.addProcessor (h : Tallied ps d) (p : Processor φ) : Tallied (ps ++ [p]) (d.addProcessor p) := by
  refine ⟨congrArg (· ++ [p]) h.processors, fun type => ?_, fun type => ?_⟩
  · have htotal : (d.addProcessor p).totalComputingUnits =
        Function.update d.totalComputingUnits p.countedType (d.totalComputingUnits p.countedType + countedUnits p) := rfl
    rw [htotal, Function.update_apply, countedTotal_append, h.units, h.units]
    by_cases ht : type = p.countedType
    · simp [ht, countedTotal]
    · simp [ht, countedTotal, Ne.symm ht]
  · have hcount : (d.addProcessor p).totalProcessors =
        Function.update d.totalProcessors p.countedType (d.totalProcessors p.countedType + 1) := rfl
    rw [hcount, Function.update_apply, h.counts, h.counts, List.countP_append, List.countP_singleton]
    by_cases ht : type = p.countedType
    · simp [ht]
    · simp [ht, Ne.symm ht]

omit [JavaFloat φ] in
theorem Tallied.same (h : Tallied ps d) (hsame : SameProcessors d d') : Tallied ps d' :=
  ⟨hsame.processors.trans h.processors, fun type => by rw [hsame.units, h.units],
    fun type => by rw [hsame.counts, h.counts]⟩

omit [JavaFloat φ] in
/-- Whether a CPU has been counted. -/
theorem Tallied.cpus (h : Tallied ps d) : d.totalProcessors .cpu = 0 ↔ ∀ p ∈ ps, p.type ≠ "CPU" := by
  rw [h.counts]
  simp only [Nat.cast_eq_zero, List.countP_eq_zero, decide_eq_true_eq, countedType_eq_cpu, ne_eq]

omit [JavaFloat φ] in
theorem Tallied.wellFormed (h : Tallied ps d) (hcpu : ∃ p ∈ ps, p.type = "CPU") (hunits : ∀ p ∈ ps, 1 ≤ p.computingUnits) :
    WellFormed d := by
  refine ⟨by rwa [h.processors], by rwa [h.processors], fun type => ?_⟩
  rw [h.units, h.processors, countedTotal_eq type hunits]

/-- A CPU of one unit. -/
def defaultCPU : Processor φ := (Draft.new.setComputingUnits 1).proc

/-- A CPU is added if there is none. -/
theorem Tallied.addCPU (h : Tallied ps d) (hunits : ∀ p ∈ ps, 1 ≤ p.computingUnits) :
    WellFormed (if d.totalProcessors .cpu = 0 then d.addProcessor defaultCPU else d) := by
  split
  · refine (h.addProcessor defaultCPU).wellFormed ⟨defaultCPU, by simp, rfl⟩ fun p hp => ?_
    rcases List.mem_append.mp hp with hp | hp
    · exact hunits p hp
    · rw [List.mem_singleton.mp hp]
      exact Int.le_refl 1
  · next hcpus =>
    rw [h.cpus] at hcpus
    push Not at hcpus
    exact h.wellFormed hcpus hunits

end

/-! ## The string of Python -/

/-- Units that are given are not negative. -/
def UnitsNonneg (pf : Platform φ) (key val : Text) : Prop := ∀ n ∈ unitsOf pf key val, 0 ≤ n

instance (pf : Platform φ) (key val : Text) : Decidable (UnitsNonneg pf key val) :=
  inferInstanceAs (Decidable (∀ n ∈ unitsOf pf key val, 0 ≤ n))

def NonnegItems (pf : Platform φ) (sep : Char) (items : List Text) : Prop :=
  ∀ item ∈ items, ∀ p ∈ keyAndValue sep item, UnitsNonneg pf p.1 p.2

instance (pf : Platform φ) (sep : Char) (items : List Text) : Decidable (NonnegItems pf sep items) :=
  inferInstanceAs (Decidable (∀ item ∈ items, ∀ p ∈ keyAndValue sep item, UnitsNonneg pf p.1 p.2))

/-- The values in a constraint of the string, which may be the list of
processors. -/
def NonnegConstraint (pf : Platform φ) (c : Text) : Prop :=
  (∀ item ∈ listItems (trim ((c.dropWhile (· ≠ ':')).drop 1)), NonnegItems pf ':' (fields ',' item)) ∧
    UnitsNonneg pf (trim (c.takeWhile (· ≠ ':'))) (trim ((c.dropWhile (· ≠ ':')).drop 1))

instance (pf : Platform φ) (c : Text) : Decidable (NonnegConstraint pf c) :=
  inferInstanceAs (Decidable (_ ∧ _))

/-- The constraints of the string. -/
def stringConstraints (description : Option Text) : List Text :=
  if description.getD [] = [] then [] else fields ';' (description.getD [])

section
variable {pf : Platform φ} {key val : Text} {s s' : Draft φ} {d d' : MethodResourceDescription φ} {items : List Text}
  {sep : Char} {ps : List (Processor φ)}

omit [JavaFloat φ] in
/-- What each turn of a loop that ends normally keeps, the loop keeps. -/
theorem foldlM_keeps {α σ : Type} {f : σ → α → Option σ} {P : σ → Prop} {l : List α} {s t : σ}
    (hstep : ∀ a ∈ l, ∀ s t, P s → f s a = some t → P t) (hs : P s) (h : l.foldlM f s = some t) : P t := by
  induction l generalizing s with
  | nil =>
    cases h
    exact hs
  | cons a l ih =>
    rw [List.foldlM_cons] at h
    obtain ⟨u, hu, hrest⟩ := Option.bind_eq_some_iff.mp h
    exact ih (fun b hb => hstep b (List.mem_cons_of_mem a hb)) (hstep a List.mem_cons_self s u hs hu) hrest

theorem addConstraints_nonneg (hval : UnitsNonneg pf key val) (hs : 0 ≤ s.proc.computingUnits)
    (h : addConstraints pf key val (s, d) = some (s', d')) : 0 ≤ s'.proc.computingUnits := by
  rw [(addConstraints_gives h).1]
  cases hn : unitsOf pf key val with
  | none => exact hs
  | some n => exact hval n hn

theorem addItems_nonneg (hitems : NonnegItems pf sep items) (hs : 0 ≤ s.proc.computingUnits)
    (h : addItems pf sep items (s, d) = some (s', d')) : 0 ≤ s'.proc.computingUnits := by
  refine foldlM_keeps (P := fun r : Draft φ × MethodResourceDescription φ => 0 ≤ r.1.proc.computingUnits)
    (fun item hitem r t hr ht => ?_) hs h
  obtain ⟨⟨key, val⟩, hpair, hturn⟩ := Option.bind_eq_some_iff.mp ht
  exact addConstraints_nonneg (hitems item hitem (key, val) hpair) hr hturn

omit [JavaFloat φ] in
theorem oneUnit_pos (h : 0 ≤ s.proc.computingUnits) : 1 ≤ s.oneUnit.proc.computingUnits := by
  rw [Draft.oneUnit]
  split
  · exact Int.le_refl 1
  · omega

omit [JavaFloat φ] in
theorem oneUnit_type : s.oneUnit.proc.type = s.proc.type := by
  rw [Draft.oneUnit]
  split <;> rfl

/-- A description of which all processors have units. -/
def Complete (d : MethodResourceDescription φ) : Prop :=
  ∃ ps, Tallied ps d ∧ ∀ p ∈ ps, 1 ≤ p.computingUnits

omit [JavaFloat φ] in
theorem Complete.addProcessor {p : Processor φ} (h : Complete d) (hp : 1 ≤ p.computingUnits) :
    Complete (d.addProcessor p) := by
  obtain ⟨ps, htallied, hunits⟩ := h
  refine ⟨ps ++ [p], htallied.addProcessor p, fun q hq => ?_⟩
  rcases List.mem_append.mp hq with hq | hq
  · exact hunits q hq
  · rw [List.mem_singleton.mp hq]
    exact hp

theorem treatProcessorInList_complete {item : Text} (hitem : NonnegItems pf ':' (fields ',' item)) (h : Complete d)
    (ht : treatProcessorInList pf d item = some d') : Complete d' := by
  obtain ⟨⟨s, e⟩, hitems, he⟩ := Option.bind_eq_some_iff.mp ht
  cases he
  obtain ⟨ps, htallied, hunits⟩ := h
  have hsame := addItems_same hitems
  exact Complete.addProcessor ⟨ps, htallied.same hsame, hunits⟩
    (oneUnit_pos (addItems_nonneg hitem (Int.le_refl 0) hitems))

theorem readConstraint_complete {c : Text} (hc : NonnegConstraint pf c) (hs : 0 ≤ s.proc.computingUnits) (hd : Complete d)
    (h : readConstraint pf (s, d) c = some (s', d')) : 0 ≤ s'.proc.computingUnits ∧ Complete d' := by
  rw [readConstraint] at h
  split at h
  · dsimp only at h
    split at h
    · obtain ⟨e, he, hsd⟩ := Option.map_eq_some_iff.mp h
      cases hsd
      exact ⟨hs, foldlM_keeps (fun item hitem d e hd => treatProcessorInList_complete (hc.1 item hitem) hd) hd he⟩
    · obtain ⟨ps, htallied, hunits⟩ := hd
      have hsame := addConstraints_same h
      exact ⟨addConstraints_nonneg hc.2 hs h, ps, htallied.same hsame, hunits⟩
  · cases h
    exact ⟨hs, hd⟩

/-- With the processor that stands alone, or with a CPU, it is well-formed. -/
theorem addDraft_wellFormed (hs : 0 ≤ s.proc.computingUnits) (hd : Complete d) : WellFormed (addDraft s d) := by
  rw [addDraft]
  split
  · next hcpu =>
    have htype : s.proc.type = "CPU" := of_decide_eq_true hcpu
    split
    · obtain ⟨ps, htallied, hunits⟩ := hd.addProcessor (oneUnit_pos hs)
      refine htallied.wellFormed ⟨s.oneUnit.proc, ?_, oneUnit_type.trans htype⟩ hunits
      rw [← htallied.processors]
      exact List.mem_append_right _ (List.mem_singleton_self _)
    · split
      · obtain ⟨ps, htallied, hunits⟩ := hd.addProcessor (p := (s.setComputingUnits 1).proc) (Int.le_refl 1)
        refine htallied.wellFormed ⟨(s.setComputingUnits 1).proc, ?_, htype⟩ hunits
        rw [← htallied.processors]
        exact List.mem_append_right _ (List.mem_singleton_self _)
      · next hcpus =>
        obtain ⟨ps, htallied, hunits⟩ := hd
        rw [htallied.cpus] at hcpus
        push Not at hcpus
        exact htallied.wellFormed hcpus hunits
  · obtain ⟨ps, htallied, hunits⟩ := hd.addProcessor (oneUnit_pos hs)
    exact htallied.addCPU hunits

theorem ofString_wellFormed {description : Option Text}
    (hdescription : ∀ c ∈ stringConstraints description, NonnegConstraint pf c)
    (h : ofString pf description = some d) : WellFormed d := by
  obtain ⟨⟨s, e⟩, hloop, he⟩ := Option.bind_eq_some_iff.mp h
  cases he
  have hkeeps := foldlM_keeps
    (P := fun r : Draft φ × MethodResourceDescription φ => 0 ≤ r.1.proc.computingUnits ∧ Complete r.2)
    (fun c hc r t hr ht => readConstraint_complete (hdescription c hc) hr.1 hr.2 ht)
    ⟨Int.le_refl 0, [], tallied_new, by simp⟩ hloop
  exact addDraft_wellFormed hkeeps.1 hkeeps.2

end

/-! ## The arrays of C -/

/-- The units and the kind that the constraints of a processor give it. -/
def givenUnits (pf : Platform φ) (items : List Text) : Int := (given (unitsOf pf) '=' items).getD 0

def givenKind (pf : Platform φ) (items : List Text) : ProcessorType :=
  ProcessorType.of ((given (typeOf pf) '=' items).getD "CPU")

/-- The only processor has a unit: the constraints do not take it. -/
def StartKept (pf : Platform φ) (loose : List Text) : Prop := ∀ n ∈ given (unitsOf pf) '=' loose, 1 ≤ n

/-- If the constraints besides give a kind or units to the last processor, it is
its own kind, and its own units, or one if it has none, which it must be given
then. -/
def LastKept (pf : Platform φ) (loose last : List Text) : Prop :=
  (∀ type ∈ given (typeOf pf) '=' loose, ProcessorType.of type = givenKind pf last) ∧
    (given (unitsOf pf) '=' loose).getD (givenUnits pf last) = max (givenUnits pf last) 1

instance (pf : Platform φ) (loose : List Text) : Decidable (StartKept pf loose) :=
  inferInstanceAs (Decidable (∀ n ∈ given (unitsOf pf) '=' loose, 1 ≤ n))

instance (pf : Platform φ) (loose last : List Text) : Decidable (LastKept pf loose last) :=
  @instDecidableAnd (∀ type ∈ given (typeOf pf) '=' loose, ProcessorType.of type = givenKind pf last) _ inferInstance
    inferInstance

/-- With a list of processors, each but the last is given a unit. -/
def UnitsKept (pf : Platform φ) (constraints : List Text) (processorString : Option Text) : Prop :=
  if processorString.getD [] = [] then StartKept pf (looseItems constraints)
  else
    (∀ items ∈ (processorItems processorString).dropLast, 1 ≤ givenUnits pf items) ∧
      ∀ last ∈ (processorItems processorString).getLast?, LastKept pf (looseItems constraints) last

instance (pf : Platform φ) (constraints : List Text) (processorString : Option Text) :
    Decidable (UnitsKept pf constraints processorString) :=
  inferInstanceAs (Decidable
    (if processorString.getD [] = [] then StartKept pf (looseItems constraints)
    else
      (∀ items ∈ (processorItems processorString).dropLast, 1 ≤ givenUnits pf items) ∧
        ∀ last ∈ (processorItems processorString).getLast?, LastKept pf (looseItems constraints) last))

section
variable {pf : Platform φ} {s t : Draft φ} {d d' : MethodResourceDescription φ} {items : List Text}
  {p q : Processor φ} {ps : List (Processor φ)}

/-- A processor has what its constraints give it. -/
theorem addItems_new (h : addItems pf '=' items (Draft.new, d) = some (t, d')) :
    (t.proc.computingUnits, t.proc.countedType) = (givenUnits pf items, givenKind pf items) :=
  Prod.ext (addItems_gives h).1 (congrArg ProcessorType.of (addItems_gives h).2)

/-- The processors of the list are added as they are filled in. -/
theorem addProcessorItems_foldlM {pieces : List (List Text)} (hd : Tallied ps d)
    (h : pieces.foldlM (addProcessorItems pf) (s, d) = some (t, d')) :
    ∃ drafts : List (Draft φ),
      (drafts.map fun s => (s.proc.computingUnits, s.proc.countedType)) =
        pieces.map (fun items => (givenUnits pf items, givenKind pf items)) ∧
      Tallied (ps ++ drafts.map Draft.proc) d' ∧ t = drafts.getLast?.getD s := by
  induction pieces generalizing s d ps with
  | nil =>
    cases h
    exact ⟨[], rfl, by simpa using hd, rfl⟩
  | cons piece pieces ih =>
    rw [List.foldlM_cons] at h
    obtain ⟨⟨u, e⟩, hfirst, hrest⟩ := Option.bind_eq_some_iff.mp h
    obtain ⟨⟨u', e'⟩, hitems, he⟩ := Option.bind_eq_some_iff.mp hfirst
    cases he
    obtain ⟨drafts, hdrafts, htallied, hlast⟩ := ih ((hd.same (addItems_same hitems)).addProcessor u.proc) hrest
    refine ⟨u :: drafts, congrArg₂ List.cons (addItems_new hitems) hdrafts, ?_, ?_⟩
    · simpa using htallied
    · rw [hlast, List.getLast?_cons]
      rfl

/-- A CPU is added if none has been counted. -/
def addCPU (d : MethodResourceDescription φ) : MethodResourceDescription φ :=
  if d.totalProcessors .cpu = 0 then d.addProcessor defaultCPU else d

/-- When a description is well-formed of which a processor has changed since it
was counted. -/
theorem setLast_wellFormed_iff (h : Tallied (ps ++ [p]) d) :
    WellFormed (addCPU (setLast d q)) ↔
      (∀ r ∈ ps, 1 ≤ r.computingUnits) ∧ q.countedType = p.countedType ∧
        q.computingUnits = max p.computingUnits 1 := by
  have hset : (setLast d q).processors = ps ++ [q] := by
    rw [setLast, h.processors]
    simp
  -- a CPU that is added counts as it should
  obtain ⟨extra, hextra, hunits, hprocessors, htotals, hcpus⟩ : ∃ extra : List (Processor φ),
      (∀ r ∈ extra, 1 ≤ r.computingUnits) ∧ (∀ type, countedTotal type extra = units type extra) ∧
      (addCPU (setLast d q)).processors = ps ++ [q] ++ extra ∧
      (∀ type, (addCPU (setLast d q)).totalComputingUnits type = countedTotal type (ps ++ [p]) + countedTotal type extra) ∧
      ((∃ r ∈ extra, r.type = "CPU") ∨ ∃ r ∈ ps ++ [p], r.type = "CPU") := by
    rw [addCPU]
    have hcpu : 1 ≤ (defaultCPU : Processor φ).computingUnits := Int.le_refl 1
    split
    · have hone : ∀ r ∈ [(defaultCPU : Processor φ)], 1 ≤ r.computingUnits := by simpa using hcpu
      refine ⟨[defaultCPU], hone, fun type => countedTotal_eq type hone, ?_, fun type => ?_, .inl ⟨defaultCPU, by simp, rfl⟩⟩
      · exact congrArg (· ++ [defaultCPU]) hset
      · rw [← countedTotal_append, ← (h.addProcessor defaultCPU).units]
        rfl
    · next hcount =>
      refine ⟨[], by simp, fun _ => rfl, by simpa using hset, fun type => ?_, .inr ?_⟩
      · exact (h.units type).trans (Int.add_zero _).symm
      · have hcount' : ¬ d.totalProcessors .cpu = 0 := hcount
        rw [h.cpus] at hcount'
        push Not at hcount'
        exact hcount'
  have hone : ∀ (r : Processor φ) (type : ProcessorType),
      units type [r] = if r.countedType = type then r.computingUnits else 0 := by simp
  have hcounted : ∀ (r : Processor φ) (type : ProcessorType),
      countedTotal type [r] = if r.countedType = type then countedUnits r else 0 := by simp [countedTotal]
  have hmax : countedUnits p = max p.computingUnits 1 := by
    rw [countedUnits]
    split <;> omega
  constructor
  · intro hw
    have hps : ∀ r ∈ ps, 1 ≤ r.computingUnits := fun r hr => hw.units r (by rw [hprocessors]; simp [hr])
    have hq : 1 ≤ q.computingUnits := hw.units q (by rw [hprocessors]; simp)
    have htotal := hw.totals p.countedType
    rw [htotals, hprocessors, units_append, units_append, countedTotal_append, hunits, countedTotal_eq _ hps, hone,
      hcounted, if_pos rfl, hmax] at htotal
    refine ⟨hps, ?_⟩
    by_cases ht : q.countedType = p.countedType
    · rw [if_pos ht] at htotal
      exact ⟨ht, by omega⟩
    · rw [if_neg ht] at htotal
      omega
  · rintro ⟨hps, htype, hq⟩
    refine ⟨?_, fun r hr => ?_, fun type => ?_⟩
    · rw [hprocessors]
      rcases hcpus with ⟨r, hr, hcpu⟩ | ⟨r, hr, hcpu⟩
      · exact ⟨r, by simp [hr], hcpu⟩
      · rcases List.mem_append.mp hr with hr | hr
        · exact ⟨r, by simp [hr], hcpu⟩
        · rw [List.mem_singleton.mp hr] at hcpu
          exact ⟨q, by simp, countedType_eq_cpu.mp (htype.trans (countedType_eq_cpu.mpr hcpu))⟩
    · rw [hprocessors] at hr
      rcases List.mem_append.mp hr with hr | hr
      · rcases List.mem_append.mp hr with hr | hr
        · exact hps r hr
        · rw [List.mem_singleton.mp hr, hq]
          exact le_max_right _ _
      · exact hextra r hr
    · rw [htotals, hprocessors, units_append, units_append, countedTotal_append, hunits, countedTotal_eq _ hps, hone,
        hcounted, hmax, htype, hq]

/-- The constraints of C are read into a description that is well-formed exactly
when the units that have been counted are kept. -/
theorem ofArray_wellFormed_iff {constraints : List Text} {processorString : Option Text}
    (h : ofArray pf constraints processorString = some d) :
    WellFormed d ↔ UnitsKept pf constraints processorString := by
  rw [ofArray] at h
  rw [UnitsKept]
  by_cases hempty : processorString.getD [] = []
  · simp only [hempty, ne_eq, not_true_eq_false, if_false, if_true] at h ⊢
    obtain ⟨⟨s, d₀⟩, hstart, hrest⟩ := Option.bind_eq_some_iff.mp h
    cases hstart
    obtain ⟨⟨t, e⟩, hloose, hd⟩ := Option.bind_eq_some_iff.mp hrest
    have hgiven : t.proc.computingUnits = (given (unitsOf pf) '=' (looseItems constraints)).getD 1 := (addItems_gives hloose).1
    have htallied := (tallied_new.same (addItems_same hloose)).addProcessor t.proc
    have hd' : addCPU (e.addProcessor t.proc) = d := by
      rw [addCPU]
      split at hd
      · next hcpus => rw [if_pos hcpus]; exact Option.some.inj hd
      · next hcpus => rw [if_neg hcpus]; exact Option.some.inj hd
    subst hd'
    constructor
    · intro hw n hn
      have hunits : 1 ≤ t.proc.computingUnits := by
        refine hw.units t.proc ?_
        rw [addCPU]
        split <;> simp [addProcessor_processors]
      rwa [hgiven, hn, Option.getD_some] at hunits
    · intro hunits
      refine htallied.addCPU fun r hr => ?_
      rw [List.mem_singleton.mp hr, hgiven]
      cases hn : given (unitsOf pf) '=' (looseItems constraints) with
      | none => exact Int.le_refl 1
      | some n => exact hunits n hn
  · simp only [hempty, ne_eq, not_false_eq_true, if_true, if_false] at h ⊢
    obtain ⟨⟨s, e⟩, hpieces, hrest⟩ := Option.bind_eq_some_iff.mp h
    obtain ⟨⟨t, e'⟩, hloose, hd⟩ := Option.bind_eq_some_iff.mp hrest
    obtain ⟨drafts, hdrafts, htallied, hlast⟩ := addProcessorItems_foldlM tallied_new hpieces
    obtain ⟨hunits, htype⟩ := addItems_gives hloose
    have htallied' := htallied.same (addItems_same hloose)
    have hd' : addCPU (setLast e' t.proc) = d := by
      rw [addCPU]
      split at hd
      · next hcpus => rw [if_pos hcpus]; exact Option.some.inj hd
      · next hcpus => rw [if_neg hcpus]; exact Option.some.inj hd
    subst hd'
    rcases drafts.eq_nil_or_concat with rfl | ⟨firsts, lastDraft, rfl⟩
    · -- there is no processor in the list, and the one that is filled in is not added
      have hpieces' : processorItems processorString = [] := List.map_eq_nil_iff.mp hdrafts.symm
      refine iff_of_true ?_ (by simp [hpieces'])
      have hprocessors : e'.processors = [] := htallied'.processors
      have hnone : setLast e' t.proc = e' := by
        rw [setLast, hprocessors]
        exact congrArg (fun ps => { e' with processors := ps }) hprocessors.symm
      rw [hnone]
      exact htallied'.addCPU (by simp)
    · simp only [List.concat_eq_append, List.map_append, List.map_cons, List.map_nil, List.nil_append,
        List.getLast?_append, List.getLast?_singleton, Option.some_or, Option.getD_some] at hdrafts htallied' hlast
      subst hlast
      rw [setLast_wellFormed_iff htallied']
      obtain ⟨pieces, lastPieces, hsplit, hfirsts, hlastPieces⟩ := List.map_eq_append_iff.mp hdrafts.symm
      obtain ⟨piece, rfl, hpiece⟩ := List.map_eq_singleton_iff.mp hlastPieces
      obtain ⟨hpieceUnits, hpieceKind⟩ := Prod.mk.inj hpiece
      have hfirstUnits : pieces.map (givenUnits pf) = firsts.map fun u => u.proc.computingUnits := by
        have hfst := congrArg (List.map Prod.fst) hfirsts
        rw [List.map_map, List.map_map] at hfst
        exact hfst
      have hkind : t.proc.countedType = s.proc.countedType ↔
          ∀ type ∈ given (typeOf pf) '=' (looseItems constraints), ProcessorType.of type = givenKind pf piece := by
        rw [hpieceKind, Processor.countedType, htype]
        cases given (typeOf pf) '=' (looseItems constraints) <;> simp [Processor.countedType]
      have hinit : (∀ r ∈ firsts.map Draft.proc, 1 ≤ r.computingUnits) ↔ ∀ items ∈ pieces, 1 ≤ givenUnits pf items := by
        have hall : (∀ n ∈ pieces.map (givenUnits pf), 1 ≤ n) ↔ ∀ n ∈ firsts.map fun u => u.proc.computingUnits, 1 ≤ n := by
          rw [hfirstUnits]
        simpa using hall.symm
      rw [hinit, hkind, hunits, ← hpieceUnits, hsplit, List.dropLast_concat, List.getLast?_concat]
      simp [LastKept]

end

/-! ## Both -/

/-- The units in the arrays. -/
def NonnegArrays (pf : Platform φ) (constraints : List Text) (processorString : Option Text) : Prop :=
  (∀ items ∈ processorItems processorString, NonnegItems pf '=' items) ∧ NonnegItems pf '=' (looseItems constraints)

instance (pf : Platform φ) (constraints : List Text) (processorString : Option Text) :
    Decidable (NonnegArrays pf constraints processorString) :=
  inferInstanceAs (Decidable (_ ∧ _))

theorem constraints_wellFormed_iff (pf : Platform φ) :
    (∀ description d, (∀ c ∈ stringConstraints description, NonnegConstraint pf c) →
      ofString pf description = some d → WellFormed d) ∧
    ∀ constraints processorString d, ofArray pf constraints processorString = some d →
      (WellFormed d ↔ UnitsKept pf constraints processorString) :=
  ⟨fun _ _ => ofString_wellFormed, fun _ _ _ => ofArray_wellFormed_iff⟩

/-- An environment that sets nothing, numbers that are whole. -/
def plainPlatform : Platform Int where
  loadFromEnvironment := some
  toLowerCase := List.map Char.toLower
  toUpperCase := List.map Char.toUpper
  floatValueOf := parseInt?
  integerValueOf := parseInt?

def gpuString : Text := "ComputingUnits:2;processors:[{ProcessorType:GPU, ComputingUnits:3}]".toList

def oneGPU : Text := "Processor(ProcessorType=CPU, ComputingUnits=2)@Processor(ProcessorType=GPU, ComputingUnits=3)".toList

theorem constraints_wellFormed_gpu :
    (∃ d, ofString plainPlatform (some gpuString) = some d ∧ WellFormed d) ∧
      ∃ d, ofArray plainPlatform [[]] (some oneGPU) = some d ∧ WellFormed d := by
  obtain ⟨d, hd⟩ := Option.isSome_iff_exists.mp (by decide : (ofString plainPlatform (some gpuString)).isSome)
  obtain ⟨e, he⟩ := Option.isSome_iff_exists.mp (by decide : (ofArray plainPlatform [[]] (some oneGPU)).isSome)
  obtain ⟨hstring, harray⟩ := constraints_wellFormed_iff plainPlatform
  exact ⟨⟨d, hd, hstring _ d (by decide) hd⟩, e, he, (harray _ _ e he).mpr (by decide)⟩

/-- A processor that is given units once it has been counted. -/
def fourUnitsCPU : Text := "Processor(ProcessorType=CPU, ComputingUnits=4)".toList

def unitsAfterwards : List Text := ["ComputingUnits=2".toList]

theorem ofArray_recounted :
    ∃ (pf : Platform Int) (constraints : List Text) (processorString : Option Text) (d : MethodResourceDescription Int),
      NonnegArrays pf constraints processorString ∧ ofArray pf constraints processorString = some d ∧ ¬ WellFormed d := by
  have hread : (ofArray plainPlatform unitsAfterwards (some fourUnitsCPU)).map
      (fun d => (d.totalComputingUnits .cpu, units .cpu d.processors)) = some (4, 2) := by decide
  obtain ⟨d, hd, hunits⟩ := Option.map_eq_some_iff.mp hread
  refine ⟨plainPlatform, unitsAfterwards, some fourUnitsCPU, d, by decide, hd, fun hw => ?_⟩
  have htotal := hw.totals .cpu
  rw [(Prod.mk.inj hunits).1, (Prod.mk.inj hunits).2] at htotal
  exact absurd htotal (by decide)

end MethodResourceDescription

end Compss.Resources
