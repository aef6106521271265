/-
The map of sockets of a worker: read by `processLsCpuOutput` from the output of
`lscpu` as a text, and from the text by the constructor of `BindToMap`.

A line of the output has a label and a value, with any blanks before, between
and after them. A list of CPUs has ids and ranges of ids, a map one such list
for each socket.
-/
import Compss.Lib.JavaText
import Compss.Lib.Traverse
import Compss.Worker.ThreadBinder
import Mathlib.Algebra.Order.Ring.Int

namespace Compss.Worker

open Lib Lib.Text

namespace BindToMap

/-! ## The constructor -/

/-- The ids of an interval, and how many there are; missing when it raises. -/
def readInterval (interval : Text) : Option (Int × List Int) := do
  let bounds := fields '-' interval
  let lowerBound ← bounds[0]?.bind parseInt32?
  let upperBound ← if bounds.length = 2 then bounds[1]?.bind parseInt32? else some lowerBound
  let amount := wrap (wrap (upperBound - lowerBound) + 1)
  some (amount, (List.range amount.toNat).map fun i : Nat => wrap (lowerBound + i))

def readSocket (availableCPUs : Text) : Option (Int × List Int) :=
  ((fields ',' availableCPUs).mapM readInterval).map fun intervals =>
    ((intervals.map Prod.fst).sum, (intervals.map Prod.snd).flatten)

/-- Missing when it raises. The sum wraps at each addition, which comes to the same
as wrapping it at the end. -/
def new (numThreads : Int) (socketString : Text) : Option BindToMap := do
  let sockets ← (fields '/' socketString).mapM readSocket
  auxiliarConstructor numThreads (sockets.map Prod.snd) (wrap (sockets.map Prod.fst).sum)

end BindToMap

/-! ## The output of `lscpu` -/

/-- A range of ids as text. -/
def rangeText (low high : Int) : Text := decimal low ++ '-' :: decimal high

namespace LsCpu

def socketsLabel : Text := "Socket(s):".toList
def coresLabel : Text := "Core(s) per socket:".toList
def threadsLabel : Text := "Thread(s) per core:".toList
def numaLabel : Text := "NUMA node".toList
def cpusLabel : Text := "CPU(s):".toList

end LsCpu

/-- What has been read of the output. -/
structure LsCpu where
  numSockets : Option Int
  coresPerSocket : Option Int
  threadsPerCore : Option Int
  numCPUs : Option Int
  numaDescription : List Text

namespace LsCpu

def empty : LsCpu := ⟨none, none, none, none, []⟩

/-- The number at the end of the line, the old one when nothing is there; missing
when it raises. -/
def lastNumber (line : Text) (old : Option Int) : Option (Option Int) :=
  (fields ' ' line).getLast?.bind fun value => if value = [] then some old else (parseInt32? value).map some

def processLine (l : LsCpu) (line : Text) : Option LsCpu :=
  if contains socketsLabel line then (lastNumber line l.numSockets).map fun v => { l with numSockets := v }
  else if contains coresLabel line then (lastNumber line l.coresPerSocket).map fun v => { l with coresPerSocket := v }
  else if contains threadsLabel line then (lastNumber line l.threadsPerCore).map fun v => { l with threadsPerCore := v }
  else if contains numaLabel line ∧ contains cpusLabel line then
    let lineValues := fields ' ' (replaceAllBlanks line.length line)
    some (if lineValues.length = 4 then { l with numaDescription := l.numaDescription ++ lineValues.getLast?.toList } else l)
  else if contains cpusLabel line then (lastNumber line l.numCPUs).map fun v => { l with numCPUs := v }
  else some l

/-- Missing when a null is read as a number. -/
def cpuMap (l : LsCpu) : Option Text :=
  match l.numSockets.filter (0 < ·) with
  | none => some ("0-".toList ++ l.numCPUs.elim "null".toList decimal)
  | some numSockets =>
    if l.numaDescription ≠ [] then some (join '/' l.numaDescription)
    else do
      let coresPerSocket ← l.coresPerSocket
      let threadsPerCore ← l.threadsPerCore
      let cpusPerSocket := wrap (coresPerSocket * threadsPerCore)
      some (join '/' ((List.range numSockets.toNat).map fun i : Nat =>
        rangeText (wrap (i * cpusPerSocket)) (wrap (wrap ((i + 1) * cpusPerSocket) - 1))))

/-- Missing when it raises. -/
def processLsCpuOutput (cmdOutput : Text) : Option Text :=
  ((fields '\n' cmdOutput).foldlM processLine empty).bind cpuMap

end LsCpu

/-! ## Maps of sockets as texts -/

/-- An id, or a range of ids. -/
inductive Interval
  | id (i : Nat)
  | range (low high : Nat) (le : low ≤ high)

namespace Interval

def text : Interval → Text
  | id i => decimal i
  | range low high _ => rangeText low high

def ids : Interval → List Nat
  | id i => [i]
  | range low high _ => List.range' low (high + 1 - low)

theorem ids_ne_nil (interval : Interval) : interval.ids ≠ [] := by
  cases interval with
  | id i => exact List.cons_ne_nil _ _
  | range low high le =>
    intro h
    have hlength := congrArg List.length h
    simp only [ids, List.length_range', List.length_nil] at hlength
    omega

end Interval

/-- The ids of a list of intervals. -/
def idsOf (cpus : List Interval) : List Nat := cpus.flatMap Interval.ids

def cpusText (cpus : List Interval) : Text := join ',' (cpus.map Interval.text)

def socketsText (sockets : List (List Interval)) : Text := join '/' (sockets.map cpusText)

theorem mem_decimal_nat {c : Char} {n : Nat} (h : c ∈ decimal n) : c.isDigit = true :=
  Nat.isDigit_of_mem_toDigits (by decide) (by decide) h

theorem Interval.mem_text {c : Char} {interval : Interval} (h : c ∈ interval.text) : c.isDigit = true ∨ c = '-' := by
  cases interval with
  | id i => exact .inl (mem_decimal_nat h)
  | range low high le =>
    rcases List.mem_append.mp h with h | h
    · exact .inl (mem_decimal_nat h)
    rcases List.mem_cons.mp h with rfl | h
    · exact .inr rfl
    · exact .inl (mem_decimal_nat h)

theorem Interval.text_ne_nil (interval : Interval) : interval.text ≠ [] := by
  cases interval with
  | id i => exact decimal_ne_nil i
  | range low high le => exact List.append_ne_nil_of_right_ne_nil _ (List.cons_ne_nil _ _)

theorem mem_cpusText {c : Char} {cpus : List Interval} (h : c ∈ cpusText cpus) : c.isDigit = true ∨ c = '-' ∨ c = ',' := by
  rcases mem_join h with rfl | ⟨w, hw, hc⟩
  · exact .inr (.inr rfl)
  · obtain ⟨interval, -, rfl⟩ := List.mem_map.mp hw
    rcases interval.mem_text hc with hc | hc
    · exact .inl hc
    · exact .inr (.inl hc)

theorem cpusText_ne_nil {cpus : List Interval} (h : cpus ≠ []) : cpusText cpus ≠ [] := by
  cases cpus with
  | nil => exact absurd rfl h
  | cons interval cpus =>
    cases cpus with
    | nil => exact interval.text_ne_nil
    | cons next cpus => exact List.append_ne_nil_of_left_ne_nil interval.text_ne_nil _

theorem slash_not_mem_cpusText (cpus : List Interval) : '/' ∉ cpusText cpus := fun h => by
  rcases mem_cpusText h with h | h | h
  all_goals exact absurd h (by decide)

/-- The ids are `int`s, and so is how many there are. -/
structure Fits (ids : List Nat) : Prop where
  le : ∀ i ∈ ids, i ≤ 2147483647
  length : ids.length ≤ 2147483647

theorem Fits.of_mem {α : Type} {ids : α → List Nat} {l : List α} (h : Fits (l.flatMap ids)) {a : α} (ha : a ∈ l) :
    Fits (ids a) := by
  have hsub : (ids a).Sublist (l.flatMap ids) := List.sublist_flatten_of_mem (List.mem_map_of_mem ha)
  exact ⟨fun i hi => h.le i (hsub.subset hi), hsub.length_le.trans h.length⟩

theorem Fits.of_append {l l' : List Nat} (h : Fits (l ++ l')) : Fits l :=
  ⟨fun i hi => h.le i (List.mem_append_left _ hi), (List.sublist_append_left l l').length_le.trans h.length⟩

theorem sum_lengths {α : Type} (ids : α → List Nat) (l : List α) :
    (l.map fun a => ((ids a).length : Int)).sum = ((l.flatMap ids).length : Int) := by
  induction l with
  | nil => rfl
  | cons a l ih => rw [List.map_cons, List.sum_cons, ih, List.flatMap_cons, List.length_append, Nat.cast_add]

theorem flatten_ids {α : Type} (ids : α → List Nat) (l : List α) :
    (l.map fun a => (ids a).map (Nat.cast : Nat → Int)).flatten = (l.flatMap ids).map Nat.cast := by
  rw [List.map_flatMap, List.flatMap_def]

theorem isInt_natCast {n : Nat} : IsInt n ↔ n ≤ 2147483647 := by
  unfold IsInt
  omega

namespace BindToMap

theorem readInterval_text {interval : Interval} (h : Fits interval.ids) :
    readInterval interval.text = some ((interval.ids.length : Int), interval.ids.map Nat.cast) := by
  cases interval with
  | id i =>
    have hi : IsInt i := isInt_natCast.mpr (h.le i (by simp [Interval.ids]))
    have hnot : '-' ∉ decimal i := fun hmem => absurd (mem_decimal_nat hmem) (by decide)
    have hamount : wrap (wrap 0 + 1) = 1 := by decide
    simp only [readInterval, Interval.text, fields_of_not_mem hnot, Interval.ids]
    simp [parseInt32?_decimal hi, hamount, wrap_of_isInt hi]
  | range low high le =>
    have hlow : IsInt low := isInt_natCast.mpr (h.le low (by simp [Interval.ids]; omega))
    have hhigh : IsInt high := isInt_natCast.mpr (h.le high (by simp [Interval.ids]; omega))
    have hlength := h.length
    simp only [Interval.ids, List.length_range'] at hlength
    have hfields : fields '-' (rangeText low high) = [decimal low, decimal high] := by
      have hne : [decimal low, decimal high] ≠ [] := by simp
      refine fields_join hne fun w hw => ?_
      simp only [List.mem_cons, List.not_mem_nil, or_false] at hw
      rcases hw with rfl | rfl
      · exact ⟨decimal_ne_nil _, fun hmem => absurd (mem_decimal_nat hmem) (by decide)⟩
      · exact ⟨decimal_ne_nil _, fun hmem => absurd (mem_decimal_nat hmem) (by decide)⟩
    have hamount : wrap (wrap ((high : Int) - low) + 1) = ((high + 1 - low : Nat) : Int) := by
      have hdiff : (high : Int) - low = ((high - low : Nat) : Int) := by omega
      have hsucc : ((high - low : Nat) : Int) + 1 = ((high + 1 - low : Nat) : Int) := by omega
      rw [hdiff, wrap_of_isInt (isInt_natCast.mpr (by omega)), hsucc, wrap_of_isInt (isInt_natCast.mpr hlength)]
    have hids : (List.range (high + 1 - low)).map (fun i : Nat => wrap ((low : Int) + i)) =
        (List.range' low (high + 1 - low)).map Nat.cast := by
      rw [List.range'_eq_map_range, List.map_map]
      refine List.map_congr_left fun i hi => ?_
      have hlt := List.mem_range.mp hi
      have hint := (isInt_natCast.mp hhigh)
      rw [Function.comp_apply, Nat.cast_add]
      exact wrap_of_isInt (by unfold IsInt; omega)
    simp only [readInterval, Interval.text, hfields, Interval.ids, List.length_range']
    simp [parseInt32?_decimal hlow, parseInt32?_decimal hhigh, hamount, hids]

theorem readSocket_text {cpus : List Interval} (hne : cpus ≠ []) (h : Fits (idsOf cpus)) :
    readSocket (cpusText cpus) = some (((idsOf cpus).length : Int), (idsOf cpus).map Nat.cast) := by
  have hfields : fields ',' (cpusText cpus) = cpus.map Interval.text := by
    refine fields_join (by simpa using hne) fun w hw => ?_
    obtain ⟨interval, -, rfl⟩ := List.mem_map.mp hw
    refine ⟨interval.text_ne_nil, fun hmem => ?_⟩
    rcases interval.mem_text hmem with hc | hc
    · exact absurd hc (by decide)
    · exact absurd hc (by decide)
  have hread : (cpus.map Interval.text).mapM readInterval =
      some (cpus.map fun interval => ((interval.ids.length : Int), interval.ids.map Nat.cast)) := by
    rw [List.mapM_map]
    exact mapM_eq_some_map fun interval hmem => readInterval_text (h.of_mem hmem)
  rw [readSocket, hfields, hread, Option.map_some, List.map_map, List.map_map]
  exact congrArg some (Prod.ext (sum_lengths Interval.ids cpus) (flatten_ids Interval.ids cpus))

/-- Nothing is replicated when there are as many ids as threads. -/
theorem auxiliarConstructor_of_le {numThreads total : Int} {ids : List (List Int)} (h : numThreads ≤ total) (hne : ids ≠ []) :
    auxiliarConstructor numThreads ids total = some (ids.map (List.map fun id => ⟨id, -1⟩)) := by
  have hleft : (numThreads - total).toNat = 0 := Int.toNat_eq_zero.mpr (by omega)
  cases ids with
  | nil => exact absurd rfl hne
  | cons first rest => simp [auxiliarConstructor, hleft, replicateSockets]

/-- What the constructor reads of a map of sockets is that map. -/
theorem new_socketsText_eq {sockets : List (List Interval)} (numThreads : Int) (hne : sockets ≠ [])
    (hsockets : ∀ cpus ∈ sockets, cpus ≠ []) (h : Fits (sockets.flatMap idsOf)) : new numThreads (socketsText sockets) =
      auxiliarConstructor numThreads (sockets.map fun cpus => (idsOf cpus).map Nat.cast) (sockets.flatMap idsOf).length := by
  have hfields : fields '/' (socketsText sockets) = sockets.map cpusText := by
    refine fields_join (by simpa using hne) fun w hw => ?_
    obtain ⟨cpus, hcpus, rfl⟩ := List.mem_map.mp hw
    exact ⟨cpusText_ne_nil (hsockets cpus hcpus), slash_not_mem_cpusText cpus⟩
  have hread : (sockets.map cpusText).mapM readSocket =
      some (sockets.map fun cpus => (((idsOf cpus).length : Int), (idsOf cpus).map Nat.cast)) := by
    rw [List.mapM_map]
    exact mapM_eq_some_map fun cpus hmem => readSocket_text (hsockets cpus hmem) (h.of_mem hmem)
  have htotal : wrap (sockets.map fun cpus => ((idsOf cpus).length : Int)).sum = ((sockets.flatMap idsOf).length : Int) := by
    rw [sum_lengths]
    exact wrap_of_isInt (isInt_natCast.mpr h.length)
  simp only [new, hfields, hread, Option.bind_eq_bind, Option.bind_some, List.map_map, Function.comp_def, htotal]

theorem new_socketsText {sockets : List (List Interval)} {numThreads : Int} (hne : sockets ≠ [])
    (hsockets : ∀ cpus ∈ sockets, cpus ≠ []) (h : Fits (sockets.flatMap idsOf))
    (hthreads : numThreads ≤ (sockets.flatMap idsOf).length) :
    new numThreads (socketsText sockets) = some (sockets.map fun cpus => (idsOf cpus).map fun i : Nat => ⟨i, -1⟩) := by
  rw [new_socketsText_eq numThreads hne hsockets h, auxiliarConstructor_of_le hthreads (by simpa using hne), List.map_map]
  simp [Function.comp_def]

/-! ## Replication lists no other ids -/

theorem replicateRow_subset {i : Nat} : ∀ {left : Nat} {idList : List (List Int)} {r : List (List Int) × Nat},
    replicateRow i left idList = some r → r.1.flatten ⊆ idList.flatten
  | 0, idList, r, h => by
    cases h
    exact fun a ha => ha
  | left + 1, [], r, h => by
    cases h
    exact fun a ha => ha
  | left + 1, ids :: idList, r, h => by
    obtain ⟨id, hid, h⟩ := Option.bind_eq_some_iff.mp h
    obtain ⟨r', hr', rfl⟩ := Option.map_eq_some_iff.mp h
    intro a ha
    simp only [List.flatten_cons, List.mem_append, List.mem_singleton] at ha ⊢
    rcases ha with (ha | rfl) | ha
    · exact .inl ha
    · exact .inl (List.mem_of_getElem? hid)
    · exact .inr (replicateRow_subset hr' ha)

theorem replicateSockets_subset : ∀ {fuel i left : Nat} {idList l : List (List Int)},
    replicateSockets fuel i left idList = some l → l.flatten ⊆ idList.flatten
  | 0, _, _, idList, l, h => by
    cases h
    exact fun a ha => ha
  | fuel + 1, i, left, idList, l, h => by
    obtain ⟨first, -, h⟩ := Option.bind_eq_some_iff.mp h
    split at h
    next =>
      obtain ⟨r, hr, h⟩ := Option.bind_eq_some_iff.mp h
      exact fun a ha => replicateRow_subset hr (replicateSockets_subset h ha)
    next =>
      cases h
      exact fun a ha => ha

theorem auxiliarConstructor_subset {numThreads total : Int} {ids : List (List Int)} {b : BindToMap}
    (h : auxiliarConstructor numThreads ids total = some b) : b.flatten.map Slot.id ⊆ ids.flatten := by
  obtain ⟨l, hl, rfl⟩ := Option.map_eq_some_iff.mp h
  have hids : ((l.map (List.map fun id => (⟨id, -1⟩ : Slot))).flatten).map Slot.id = l.flatten := by
    rw [List.map_flatten, List.map_map]
    simp [Function.comp_def]
  rw [hids]
  exact replicateSockets_subset hl

end BindToMap

/-! ## Lines of the output -/

namespace LsCpu

inductive Entry
  | cpus (n : Nat)
  | sockets (n : Nat)
  | cores (n : Nat)
  | threads (n : Nat)
  | node (number : Nat) (cpus : List Interval)

def Entry.label : Entry → Text
  | .cpus _ => cpusLabel
  | .sockets _ => socketsLabel
  | .cores _ => coresLabel
  | .threads _ => threadsLabel
  | .node number _ => numaLabel ++ (decimal number ++ ' ' :: cpusLabel)

def Entry.value : Entry → Text
  | .cpus n => decimal n
  | .sockets n => decimal n
  | .cores n => decimal n
  | .threads n => decimal n
  | .node _ list => cpusText list

/-- A line none of the labels is in. -/
structure Inert (text : Text) : Prop where
  oneLine : '\n' ∉ text
  sockets : contains socketsLabel text = false
  cores : contains coresLabel text = false
  threads : contains threadsLabel text = false
  cpus : contains cpusLabel text = false

inductive Line
  | entry (indent gap trailing : Nat) (e : Entry)
  | other (text : Text) (inert : Inert text)

def blanks (n : Nat) : Text := List.replicate n ' '

def Line.text : Line → Text
  | entry indent gap trailing e => blanks indent ++ (e.label ++ blanks gap) ++ ' ' :: (e.value ++ blanks trailing)
  | other text _ => text

/-! ## What is read of a line -/

/-- The letters of the label. -/
def Entry.letters : Entry → Text
  | .node _ _ => numaLabel ++ cpusLabel
  | e => e.label

/-- The characters of the numbers, the lists of CPUs and the blanks. -/
def IsSign (c : Char) : Bool := c.isDigit || c = '-' || c = ',' || c = ' '

theorem Entry.mem_label {c : Char} {e : Entry} (h : c ∈ e.label) : IsSign c = true ∨ c ∈ e.letters := by
  cases e with
  | node number cpus =>
    rcases List.mem_append.mp h with h | h
    · exact .inr (List.mem_append_left _ h)
    rcases List.mem_append.mp h with h | h
    · exact .inl (by simp [IsSign, mem_decimal_nat h])
    rcases List.mem_cons.mp h with rfl | h
    · exact .inl rfl
    · exact .inr (List.mem_append_right _ h)
  | _ => exact .inr h

theorem Entry.mem_value {c : Char} {e : Entry} (h : c ∈ e.value) : c.isDigit = true ∨ c = '-' ∨ c = ',' := by
  cases e with
  | node number cpus => exact mem_cpusText h
  | _ => exact .inl (mem_decimal_nat h)

theorem Line.mem_text {c : Char} {indent gap trailing : Nat} {e : Entry} (h : c ∈ (entry indent gap trailing e).text) :
    IsSign c = true ∨ c ∈ e.letters := by
  have hblank : ∀ {n : Nat}, c ∈ blanks n → IsSign c = true := fun h => by
    rw [List.eq_of_mem_replicate h]
    rfl
  simp only [Line.text, List.mem_append, List.mem_cons] at h
  rcases h with (h | h | h) | rfl | h | h
  · exact .inl (hblank h)
  · exact e.mem_label h
  · exact .inl (hblank h)
  · exact .inl rfl
  · exact .inl (by rcases e.mem_value h with hc | rfl | rfl <;> simp [IsSign, *])
  · exact .inl (hblank h)

/-- A label with a letter that the line's does not have is not in the line. -/
theorem Line.not_contains {label : Text} (c : Char) {indent gap trailing : Nat} {e : Entry} (hlabel : c ∈ label)
    (hsign : IsSign c = false) (hletters : c ∉ e.letters) : contains label (entry indent gap trailing e).text = false := by
  refine not_contains_of_not_mem hlabel fun h => ?_
  rcases mem_text h with h | h
  · rw [hsign] at h
    cases h
  · exact hletters h

theorem Line.contains_label (indent gap trailing : Nat) (e : Entry) {label a b : Text} (h : e.label = a ++ label ++ b) :
    contains label (entry indent gap trailing e).text = true :=
  contains_of_append (blanks indent ++ a) (b ++ (blanks gap ++ ' ' :: (e.value ++ blanks trailing))) (by simp [Line.text, h])

theorem Entry.lastNumber_text {indent gap trailing n : Nat} {e : Entry} (hvalue : e.value = decimal n) (old : Option Int) :
    lastNumber (Line.entry indent gap trailing e).text old = if IsInt n then some (some (n : Int)) else none := by
  have hblank : ' ' ∉ e.value := fun h => by
    rcases e.mem_value h with h | h | h
    all_goals exact absurd h (by decide)
  have hne : e.value ≠ [] := hvalue ▸ decimal_ne_nil n
  simp only [lastNumber, Line.text, blanks]
  rw [getLast?_fields _ _ hne hblank, Option.bind_some, if_neg hne, hvalue]
  split
  next h => rw [parseInt32?_decimal h, Option.map_some]
  next h => simp [parseInt32?, Option.filter, h]

/-! ## What is read of a node -/

/-- A blank at the start of the line is a field of its own, so only a line without one
has four fields; but the label of a list that is empty then stands in its place. -/
def nodeDescription (indent : Nat) (cpus : List Interval) : Option Text :=
  if indent = 0 then (if cpus = [] then none else some (cpusText cpus)) else (if cpus = [] then some cpusLabel else none)

theorem nodeDescription_text {indent : Nat} {cpus : List Interval} {text : Text}
    (h : nodeDescription indent cpus = some text) : text ≠ [] ∧ '/' ∉ text := by
  by_cases hcpus : cpus = []
  · by_cases hindent : indent = 0
    · simp [nodeDescription, hcpus, hindent] at h
    · obtain rfl : cpusLabel = text := by simpa [nodeDescription, hcpus, hindent] using h
      exact ⟨by decide, by decide⟩
  · by_cases hindent : indent = 0
    · obtain rfl : cpusText cpus = text := by simpa [nodeDescription, hcpus, hindent] using h
      exact ⟨cpusText_ne_nil hcpus, slash_not_mem_cpusText cpus⟩
    · simp [nodeDescription, hcpus, hindent] at h

/-- The words of the line of a node; an empty one stands for a blank before or after. -/
def nodeWords (indent trailing number : Nat) (cpus : List Interval) : List Text :=
  (if indent = 0 then [] else [[]]) ++ (["NUMA".toList, "node".toList ++ decimal number, cpusLabel] ++
    if cpus = [] then [[]] else cpusText cpus :: if trailing = 0 then [] else [[]])

theorem blank_not_mem_cpusText (cpus : List Interval) : ' ' ∉ cpusText cpus := fun h => by
  rcases mem_cpusText h with h | h | h
  all_goals exact absurd h (by decide)

theorem blank_not_mem_node (number : Nat) : ' ' ∉ "node".toList ++ decimal (number : Int) := fun h => by
  rcases List.mem_append.mp h with h | h
  · exact absurd h (by decide)
  · exact absurd (mem_decimal_nat h) (by decide)

theorem head_ne_blank {w : Text} (hne : w ≠ []) (h : ' ' ∉ w) (s : Text) : (w ++ s).head? ≠ some ' ' := by
  cases w with
  | nil => exact absurd rfl hne
  | cons c w =>
    rw [List.cons_append, List.head?_cons]
    intro hc
    exact h (by simp [Option.some.inj hc])

/-- A word after blanks. -/
theorem squeeze_blanks_word (n : Nat) {w : Text} (hne : w ≠ []) (h : ' ' ∉ w) (s : Text) :
    squeeze (blanks (n + 1) ++ (w ++ s)) = ' ' :: (w ++ squeeze s) := by
  rw [blanks, squeeze_replicate n (head_ne_blank hne h s), squeeze_append h]

theorem squeeze_blanks_end (n : Nat) : squeeze (blanks n) = if n = 0 then [] else [' '] := by
  cases n with
  | zero => rfl
  | succ n =>
    have h := squeeze_replicate n (s := []) (by simp)
    rw [List.append_nil] at h
    rw [blanks, h, if_neg (Nat.succ_ne_zero n)]
    rfl

theorem squeeze_node (indent gap trailing number : Nat) (cpus : List Interval) :
    squeeze (Line.entry indent gap trailing (.node number cpus)).text = join ' ' (nodeWords indent trailing number cpus) := by
  have htext : (Line.entry indent gap trailing (.node number cpus)).text = blanks indent ++ ("NUMA".toList ++
      (blanks (0 + 1) ++ (("node".toList ++ decimal number) ++ (blanks (0 + 1) ++ (cpusLabel ++
        (blanks (gap + 1) ++ (cpusText cpus ++ blanks trailing))))))) := by
    have hlabel : (Entry.node number cpus).label =
        "NUMA".toList ++ ' ' :: ("node".toList ++ (decimal number ++ ' ' :: cpusLabel)) := rfl
    have hgap : blanks (gap + 1) = blanks gap ++ [' '] := List.replicate_succ'
    simp only [Line.text, hlabel, hgap, Entry.value, List.append_assoc, List.cons_append, List.nil_append]
    rfl
  have hend : squeeze (blanks (gap + 1) ++ (cpusText cpus ++ blanks trailing)) =
      ' ' :: (if cpus = [] then [] else cpusText cpus ++ if trailing = 0 then [] else [' ']) := by
    by_cases hcpus : cpus = []
    · have hblanks : blanks (gap + 1) ++ (cpusText [] ++ blanks trailing) = blanks (gap + 1 + trailing) :=
        List.replicate_append_replicate
      rw [hcpus, hblanks, squeeze_blanks_end, if_neg (by omega), if_pos rfl]
    · rw [if_neg hcpus, squeeze_blanks_word gap (cpusText_ne_nil hcpus) (blank_not_mem_cpusText cpus), squeeze_blanks_end]
  have hfrom : squeeze ("NUMA".toList ++ (blanks (0 + 1) ++ (("node".toList ++ decimal number) ++ (blanks (0 + 1) ++
      (cpusLabel ++ (blanks (gap + 1) ++ (cpusText cpus ++ blanks trailing))))))) = join ' ' (nodeWords 0 trailing number cpus) := by
    rw [squeeze_append (by decide), squeeze_blanks_word 0 (by simp) (blank_not_mem_node number),
      squeeze_blanks_word 0 (by decide) (by decide), hend, nodeWords]
    by_cases hcpus : cpus = []
    · simp [hcpus, join]
    · by_cases htrailing : trailing = 0
      · simp [hcpus, htrailing, join]
      · simp [hcpus, htrailing, join]
  rw [htext]
  cases indent with
  | zero => exact hfrom
  | succ indent =>
    rw [blanks, squeeze_replicate indent (head_ne_blank (by decide) (by decide) _), hfrom]
    rfl

theorem fields_node (indent gap trailing number : Nat) (cpus : List Interval) :
    fields ' ' (squeeze (Line.entry indent gap trailing (.node number cpus)).text) =
      (if indent = 0 then [] else [[]]) ++ (["NUMA".toList, "node".toList ++ decimal number, cpusLabel] ++
        if cpus = [] then [] else [cpusText cpus]) := by
  have hwords : (join ' ' (nodeWords indent trailing number cpus)).splitOn ' ' = nodeWords indent trailing number cpus := by
    refine splitOn_join (by simp [nodeWords]) fun w hw => ?_
    have hempty : ∀ {p : Prop} [Decidable p], w ∈ (if p then [] else [[]] : List Text) → ' ' ∉ w := fun h => by
      split at h
      next => cases h
      next => simp [List.mem_singleton.mp h]
    rcases List.mem_append.mp hw with hw | hw
    · exact hempty hw
    simp only [List.cons_append, List.nil_append, List.mem_cons] at hw
    rcases hw with rfl | rfl | rfl | hw
    · decide
    · exact blank_not_mem_node number
    · decide
    · split at hw
      next => simp [List.mem_singleton.mp hw]
      next =>
        rcases List.mem_cons.mp hw with rfl | hw
        · exact blank_not_mem_cpusText cpus
        · exact hempty hw
  rw [squeeze_node]
  by_cases hcpus : cpus = []
  · have hsplit : (join ' ' (nodeWords indent trailing number cpus)).splitOn ' ' =
        ((if indent = 0 then [] else [[]]) ++ ["NUMA".toList, "node".toList ++ decimal number]) ++
          cpusLabel :: List.replicate 1 [] := by
      rw [hwords, nodeWords, if_pos hcpus, List.append_assoc]
      rfl
    rw [fields_of_splitOn hsplit (by decide), if_pos hcpus, List.append_assoc]
    rfl
  · have hsplit : (join ' ' (nodeWords indent trailing number cpus)).splitOn ' ' =
        ((if indent = 0 then [] else [[]]) ++ ["NUMA".toList, "node".toList ++ decimal number, cpusLabel]) ++
          cpusText cpus :: List.replicate (if trailing = 0 then 0 else 1) [] := by
      rw [hwords, nodeWords, if_neg hcpus, List.append_assoc]
      by_cases htrailing : trailing = 0
      · simp [htrailing]
      · simp [htrailing]
    rw [fields_of_splitOn hsplit (cpusText_ne_nil hcpus), if_neg hcpus, List.append_assoc]

/-- The description is the last of the fields, if there are four of them. -/
theorem nodeDescription_eq (indent gap trailing number : Nat) (cpus : List Interval) :
    let lineValues := fields ' ' (squeeze (Line.entry indent gap trailing (.node number cpus)).text)
    (if lineValues.length = 4 then lineValues.getLast?.toList else []) = (nodeDescription indent cpus).toList := by
  dsimp only
  rw [fields_node, nodeDescription]
  by_cases hindent : indent = 0
  · by_cases hcpus : cpus = []
    · simp [hindent, hcpus]
    · simp [hindent, hcpus]
  · by_cases hcpus : cpus = []
    · simp [hindent, hcpus]
    · simp [hindent, hcpus]

theorem Line.oneLine (line : Line) : '\n' ∉ line.text := by
  cases line with
  | other text inert => exact inert.oneLine
  | entry indent gap trailing e =>
    intro h
    rcases mem_text h with h | h
    · exact absurd h (by decide)
    · revert h
      cases e with
      | node number cpus => exact show '\n' ∉ numaLabel ++ cpusLabel by decide
      | cpus n => exact show '\n' ∉ cpusLabel by decide
      | sockets n => exact show '\n' ∉ socketsLabel by decide
      | cores n => exact show '\n' ∉ coresLabel by decide
      | threads n => exact show '\n' ∉ threadsLabel by decide

/-- What is read of a line; missing when it raises. -/
def Line.read : Line → LsCpu → Option LsCpu
  | entry _ _ _ (.cpus n), l => if IsInt n then some { l with numCPUs := some (n : Int) } else none
  | entry _ _ _ (.sockets n), l => if IsInt n then some { l with numSockets := some (n : Int) } else none
  | entry _ _ _ (.cores n), l => if IsInt n then some { l with coresPerSocket := some (n : Int) } else none
  | entry _ _ _ (.threads n), l => if IsInt n then some { l with threadsPerCore := some (n : Int) } else none
  | entry indent _ _ (.node _ list), l =>
    some { l with numaDescription := l.numaDescription ++ (nodeDescription indent list).toList }
  | other _ _, l => some l

theorem processLine_text (line : Line) (l : LsCpu) : processLine l line.text = line.read l := by
  cases line with
  | other text inert => simp [processLine, Line.text, Line.read, inert.sockets, inert.cores, inert.threads, inert.cpus]
  | entry indent gap trailing e =>
    have hnot : ∀ {label : Text} (c : Char), c ∈ label → IsSign c = false → c ∉ e.letters →
        contains label (Line.entry indent gap trailing e).text = false := fun c => Line.not_contains c
    have hcontains : ∀ {label : Text} (a b : Text), e.label = a ++ label ++ b →
        contains label (Line.entry indent gap trailing e).text = true :=
      fun a b => Line.contains_label indent gap trailing e
    cases e with
    | sockets n =>
      have hsockets : contains socketsLabel (Line.entry indent gap trailing (.sockets n)).text = true := hcontains [] [] rfl
      have hvalue : (Entry.sockets n).value = decimal n := rfl
      simp only [processLine, hsockets, if_true, Entry.lastNumber_text hvalue, Line.read]
      split <;> rfl
    | cores n =>
      have hsockets : contains socketsLabel (Line.entry indent gap trailing (.cores n)).text = false :=
        hnot 'S' (by decide) (by decide) (show 'S' ∉ coresLabel by decide)
      have hcores : contains coresLabel (Line.entry indent gap trailing (.cores n)).text = true := hcontains [] [] rfl
      have hvalue : (Entry.cores n).value = decimal n := rfl
      simp only [processLine, hsockets, Bool.false_eq_true, if_false, hcores, if_true, Entry.lastNumber_text hvalue,
        Line.read]
      split <;> rfl
    | threads n =>
      have hsockets : contains socketsLabel (Line.entry indent gap trailing (.threads n)).text = false :=
        hnot 'S' (by decide) (by decide) (show 'S' ∉ threadsLabel by decide)
      have hcores : contains coresLabel (Line.entry indent gap trailing (.threads n)).text = false :=
        hnot 'C' (by decide) (by decide) (show 'C' ∉ threadsLabel by decide)
      have hthreads : contains threadsLabel (Line.entry indent gap trailing (.threads n)).text = true := hcontains [] [] rfl
      have hvalue : (Entry.threads n).value = decimal n := rfl
      simp only [processLine, hsockets, hcores, Bool.false_eq_true, if_false, hthreads, if_true,
        Entry.lastNumber_text hvalue, Line.read]
      split <;> rfl
    | cpus n =>
      have hsockets : contains socketsLabel (Line.entry indent gap trailing (.cpus n)).text = false :=
        hnot 'S' (by decide) (by decide) (show 'S' ∉ cpusLabel by decide)
      have hcores : contains coresLabel (Line.entry indent gap trailing (.cpus n)).text = false :=
        hnot 'r' (by decide) (by decide) (show 'r' ∉ cpusLabel by decide)
      have hthreads : contains threadsLabel (Line.entry indent gap trailing (.cpus n)).text = false :=
        hnot 'T' (by decide) (by decide) (show 'T' ∉ cpusLabel by decide)
      have hnuma : contains numaLabel (Line.entry indent gap trailing (.cpus n)).text = false :=
        hnot 'N' (by decide) (by decide) (show 'N' ∉ cpusLabel by decide)
      have hcpus : contains cpusLabel (Line.entry indent gap trailing (.cpus n)).text = true := hcontains [] [] rfl
      have hvalue : (Entry.cpus n).value = decimal n := rfl
      simp only [processLine, hsockets, hcores, hthreads, hnuma, Bool.false_eq_true, false_and, if_false, hcpus, if_true,
        Entry.lastNumber_text hvalue, Line.read]
      split <;> rfl
    | node number cpus =>
      have hsockets : contains socketsLabel (Line.entry indent gap trailing (.node number cpus)).text = false :=
        hnot 'S' (by decide) (by decide) (show 'S' ∉ numaLabel ++ cpusLabel by decide)
      have hcores : contains coresLabel (Line.entry indent gap trailing (.node number cpus)).text = false :=
        hnot 'r' (by decide) (by decide) (show 'r' ∉ numaLabel ++ cpusLabel by decide)
      have hthreads : contains threadsLabel (Line.entry indent gap trailing (.node number cpus)).text = false :=
        hnot 'T' (by decide) (by decide) (show 'T' ∉ numaLabel ++ cpusLabel by decide)
      have hnuma : contains numaLabel (Line.entry indent gap trailing (.node number cpus)).text = true :=
        hcontains [] (decimal number ++ ' ' :: cpusLabel) rfl
      have hcpus : contains cpusLabel (Line.entry indent gap trailing (.node number cpus)).text = true :=
        hcontains (numaLabel ++ decimal number ++ [' ']) [] (by simp [Entry.label])
      simp only [processLine, hsockets, hcores, hthreads, Bool.false_eq_true, if_false, hnuma, hcpus, and_self, if_true,
        replaceAllBlanks_eq (Nat.le_refl _), Line.read]
      rw [← nodeDescription_eq indent gap trailing number cpus]
      split
      next => rfl
      next => rw [List.append_nil]

/-! ## What is read of the output -/

namespace Line

def cpus? : Line → Option Nat
  | entry _ _ _ (.cpus n) => some n
  | _ => none

def sockets? : Line → Option Nat
  | entry _ _ _ (.sockets n) => some n
  | _ => none

def cores? : Line → Option Nat
  | entry _ _ _ (.cores n) => some n
  | _ => none

def threads? : Line → Option Nat
  | entry _ _ _ (.threads n) => some n
  | _ => none

/-- The number on the line. -/
def number? : Line → Option Nat
  | entry _ _ _ (.cpus n) => some n
  | entry _ _ _ (.sockets n) => some n
  | entry _ _ _ (.cores n) => some n
  | entry _ _ _ (.threads n) => some n
  | _ => none

/-- The CPUs of a node, with how far its line is indented. -/
def node? : Line → Option (Nat × List Interval)
  | entry indent _ _ (.node _ list) => some (indent, list)
  | _ => none

end Line

/-- The last number, or else the old one. -/
def latest (numbers : List Nat) (old : Option Int) : Option Int := (numbers.getLast?.map Nat.cast).or old

theorem latest_cons (n : Nat) (numbers : List Nat) (old : Option Int) :
    latest (n :: numbers) old = latest numbers (some n) := by
  rw [latest, latest, List.getLast?_cons]
  cases numbers.getLast? <;> rfl

theorem foldlM_read : ∀ {lines : List Line} {l : LsCpu},
    (∀ line ∈ lines, ∀ n : Nat, line.number? = some n → IsInt n) →
    lines.foldlM (fun l line => line.read l) l = some {
      numSockets := latest (lines.filterMap Line.sockets?) l.numSockets
      coresPerSocket := latest (lines.filterMap Line.cores?) l.coresPerSocket
      threadsPerCore := latest (lines.filterMap Line.threads?) l.threadsPerCore
      numCPUs := latest (lines.filterMap Line.cpus?) l.numCPUs
      numaDescription := l.numaDescription ++
        (lines.filterMap Line.node?).filterMap fun node => nodeDescription node.1 node.2 }
  | [], l, _ => by simp [latest]
  | line :: lines, l, hint => by
    have hrest : ∀ line ∈ lines, ∀ n : Nat, line.number? = some n → IsInt n := fun line' h => hint line' (by simp [h])
    rw [List.foldlM_cons]
    cases line with
    | other text inert =>
      rw [Line.read, Option.bind_eq_bind, Option.bind_some, foldlM_read hrest]
      rfl
    | entry indent gap trailing e =>
      cases e with
      | node number cpus =>
        rw [Line.read, Option.bind_eq_bind, Option.bind_some, foldlM_read hrest]
        simp only [Line.cpus?, Line.sockets?, Line.cores?, Line.threads?, Line.node?, List.filterMap_cons, List.append_assoc]
        cases nodeDescription indent cpus <;> rfl
      | cpus n | sockets n | cores n | threads n =>
        have hn : IsInt n := hint _ List.mem_cons_self n rfl
        rw [Line.read, if_pos hn, Option.bind_eq_bind, Option.bind_some, foldlM_read hrest]
        simp only [Line.cpus?, Line.sockets?, Line.cores?, Line.threads?, Line.node?, List.filterMap_cons, latest_cons]

/-- A number that is no `int` ends it. -/
theorem foldlM_read_none {lines : List Line} {l : LsCpu} {line : Line} {n : Nat} (hline : line ∈ lines)
    (hn : line.number? = some n) (h : ¬ IsInt n) : lines.foldlM (fun l line => line.read l) l = none := by
  refine foldlM_eq_none hline fun l => ?_
  cases line with
  | other text inert => cases hn
  | entry indent gap trailing e =>
    cases e with
    | node number cpus => cases hn
    | cpus m | sockets m | cores m | threads m =>
      cases hn
      exact if_neg h

/-- The lines that `split` finds are those that were put together. -/
theorem foldlM_fields (lines : List Line) (l : LsCpu) :
    (fields '\n' (terminated '\n' (lines.map Line.text))).foldlM processLine l = lines.foldlM (fun l line => line.read l) l := by
  have hempty : ∀ (n : Nat) (l : LsCpu), (List.replicate n []).foldlM processLine l = some l := by
    intro n
    induction n with
    | zero => exact fun l => rfl
    | succ n ih =>
      intro l
      rw [List.replicate_succ, List.foldlM_cons]
      exact ih l
  have honeLine : ∀ text ∈ lines.map Line.text, '\n' ∉ text := by
    intro text htext
    obtain ⟨line, -, rfl⟩ := List.mem_map.mp htext
    exact line.oneLine
  obtain ⟨n, hsplit⟩ := exists_splitOn_eq '\n' (terminated '\n' (lines.map Line.text))
  rw [splitOn_terminated honeLine] at hsplit
  have hfold := congrArg (fun texts => texts.foldlM processLine l) hsplit
  have hlast : ∀ l : LsCpu, [([] : Text)].foldlM processLine l = some l := hempty 1
  simp only [List.foldlM_append, hempty, hlast, Option.bind_eq_bind, Option.bind_fun_some, List.foldlM_map,
    processLine_text] at hfold
  exact hfold.symm

/-! ## Outputs -/

/-- An output of `lscpu`: one line with the number of CPUs, the lines with the numbers
of sockets, cores and threads or not, any lines of nodes, whose lists part the CPUs. -/
structure Output where
  lines : List Line
  n : Nat
  sockets : Option Nat
  cores : Option Nat
  threads : Option Nat
  cpusLine : lines.filterMap Line.cpus? = [n]
  socketsLine : lines.filterMap Line.sockets? = sockets.toList
  coresLine : lines.filterMap Line.cores? = cores.toList
  threadsLine : lines.filterMap Line.threads? = threads.toList
  pos : 1 ≤ n
  divides : sockets.getD 1 * cores.getD 1 * threads.getD 1 ∣ n
  consistent : ∀ s c t, sockets = some s → cores = some c → threads = some t → s * c * t = n
  partition : lines.filterMap Line.node? ≠ [] →
    ((lines.filterMap Line.node?).flatMap fun node => idsOf node.2).Perm (List.range n)

namespace Output

def text (o : Output) : Text := terminated '\n' (o.lines.map Line.text)

/-- The lists of the nodes, with how far their lines are indented. -/
def nodes (o : Output) : List (Nat × List Interval) := o.lines.filterMap Line.node?

/-- The line of the node is read as one of a list of CPUs. -/
def isUsed (node : Nat × List Interval) : Bool := node.1 = 0 ∧ node.2 ≠ []

/-- The lines of the nodes are used for the map. -/
def UsesNodes (o : Output) : Prop := o.sockets.isSome ∧ ∃ node ∈ o.nodes, isUsed node = true

variable {o : Output}

theorem number_le {line : Line} (hline : line ∈ o.lines) {m : Nat} (hm : line.number? = some m) : m ≤ o.n := by
  have hdivides := o.divides
  have hpos : 0 < o.n := o.pos
  have hmem : ∀ {f : Line → Option Nat}, f line = some m → m ∈ o.lines.filterMap f := fun h =>
    List.mem_filterMap.mpr ⟨line, hline, h⟩
  cases line with
  | other text inert => cases hm
  | entry indent gap trailing e =>
    cases e with
    | node number cpus => cases hm
    | cpus k =>
      have h := hmem (f := Line.cpus?) hm
      rw [o.cpusLine, List.mem_singleton] at h
      exact h.le
    | sockets k =>
      have h := hmem (f := Line.sockets?) hm
      rw [o.socketsLine, Option.mem_toList] at h
      rw [h, Option.getD_some, Nat.mul_assoc] at hdivides
      exact Nat.le_of_dvd hpos ((Nat.dvd_mul_right _ _).trans hdivides)
    | cores k =>
      have h := hmem (f := Line.cores?) hm
      rw [o.coresLine, Option.mem_toList] at h
      rw [h, Option.getD_some] at hdivides
      exact Nat.le_of_dvd hpos (((Nat.dvd_mul_left _ _).trans (Nat.dvd_mul_right _ _)).trans hdivides)
    | threads k =>
      have h := hmem (f := Line.threads?) hm
      rw [o.threadsLine, Option.mem_toList] at h
      rw [h, Option.getD_some] at hdivides
      exact Nat.le_of_dvd hpos ((Nat.dvd_mul_left _ _).trans hdivides)

/-- What is read of the lines when the number of CPUs is an `int`. -/
def summary (o : Output) : LsCpu where
  numSockets := o.sockets.map Nat.cast
  coresPerSocket := o.cores.map Nat.cast
  threadsPerCore := o.threads.map Nat.cast
  numCPUs := some o.n
  numaDescription := o.nodes.filterMap fun node => nodeDescription node.1 node.2

theorem processLsCpuOutput_text (h : IsInt o.n) : processLsCpuOutput o.text = o.summary.cpuMap := by
  have hint : ∀ line ∈ o.lines, ∀ m : Nat, line.number? = some m → IsInt m := fun line hline m hm =>
    isInt_natCast.mpr ((number_le hline hm).trans (isInt_natCast.mp h))
  have hlatest : ∀ x : Option Nat, latest x.toList none = x.map Nat.cast := fun x => by cases x <;> rfl
  rw [processLsCpuOutput, text, foldlM_fields, foldlM_read hint, Option.bind_some, o.cpusLine, o.socketsLine, o.coresLine,
    o.threadsLine]
  simp only [empty, hlatest]
  rfl

theorem processLsCpuOutput_none (h : ¬ IsInt o.n) : processLsCpuOutput o.text = none := by
  have hmem : o.n ∈ o.lines.filterMap Line.cpus? := by simp [o.cpusLine]
  obtain ⟨line, hline, hn⟩ := List.mem_filterMap.mp hmem
  have hnumber : line.number? = some o.n := by
    cases line with
    | other text inert => cases hn
    | entry indent gap trailing e =>
      cases e with
      | cpus n => exact hn
      | _ => cases hn
  rw [processLsCpuOutput, text, foldlM_fields, foldlM_read_none hline hnumber h]
  rfl

/-! ## The map of an output -/

/-- The lists that are used, one for each socket of the map. -/
def usedLists (o : Output) : List (List Interval) := (o.nodes.filter isUsed).map Prod.snd

theorem fits_of_perm {l : List Nat} {n : Nat} (hn : IsInt n) (h : l.Perm (List.range n)) : Fits l := by
  have hn := isInt_natCast.mp hn
  refine ⟨fun i hi => ?_, by rw [h.length_eq, List.length_range]; exact hn⟩
  have hlt := List.mem_range.mp (h.mem_iff.mp hi)
  omega

theorem usedLists_ne_nil {cpus : List Interval} (h : cpus ∈ o.usedLists) : cpus ≠ [] := by
  obtain ⟨node, hnode, rfl⟩ := List.mem_map.mp h
  have hused := (List.mem_filter.mp hnode).2
  simp only [isUsed, decide_eq_true_eq] at hused
  exact hused.2

/-- When no line with an empty list is indented, the descriptions are those of the
lists that are used. -/
theorem numaDescription_summary (h : ∀ node ∈ o.nodes, node.2 = [] → node.1 = 0) :
    o.summary.numaDescription = o.usedLists.map cpusText := by
  have hall : ∀ nodes : List (Nat × List Interval), (∀ node ∈ nodes, node.2 = [] → node.1 = 0) →
      (nodes.filterMap fun node => nodeDescription node.1 node.2) =
        ((nodes.filter isUsed).map Prod.snd).map cpusText := by
    intro nodes hnodes
    induction nodes with
    | nil => rfl
    | cons node nodes ih =>
      have hrest := ih fun node' hnode' => hnodes node' (by simp [hnode'])
      have hnode := hnodes node (by simp)
      by_cases hindent : node.1 = 0
      · by_cases hcpus : node.2 = []
        · simpa [nodeDescription, isUsed, hindent, hcpus] using hrest
        · simpa [nodeDescription, isUsed, hindent, hcpus] using hrest
      · have hcpus : node.2 ≠ [] := fun hcpus => hindent (hnode hcpus)
        simpa [nodeDescription, isUsed, hindent, hcpus] using hrest
  exact hall o.nodes h

/-- The ids of the nodes are those of the used lists and those of the others. -/
theorem nodes_ids_perm (o : Output) : (o.nodes.flatMap fun node => idsOf node.2).Perm
    (o.usedLists.flatMap idsOf ++ (o.nodes.filter fun node => !isUsed node).flatMap fun node => idsOf node.2) := by
  have hused : o.usedLists.flatMap idsOf = (o.nodes.filter isUsed).flatMap fun node => idsOf node.2 := List.flatMap_map ..
  rw [hused, ← List.flatMap_append]
  exact ((List.filter_append_perm isUsed o.nodes).symm).flatMap_right _

/-- A list that is not used has ids that no used one has. -/
theorem exists_not_mem_usedLists {node : Nat × List Interval} (hnode : node ∈ o.nodes) (hne : node.2 ≠ [])
    (hused : isUsed node = false) : ∃ i, i < o.n ∧ i ∉ o.usedLists.flatMap idsOf := by
  have hperm := o.nodes_ids_perm.symm.trans (o.partition (List.ne_nil_of_mem hnode))
  obtain ⟨interval, rest, hlist⟩ := List.exists_cons_of_ne_nil hne
  obtain ⟨i, hi⟩ := List.exists_mem_of_ne_nil _ interval.ids_ne_nil
  have hother : i ∈ (o.nodes.filter fun node => !isUsed node).flatMap fun node => idsOf node.2 := by
    refine List.mem_flatMap.mpr ⟨node, List.mem_filter.mpr ⟨hnode, by simp [hused]⟩, ?_⟩
    exact List.mem_flatMap.mpr ⟨interval, by simp [hlist], hi⟩
  refine ⟨i, List.mem_range.mp (hperm.mem_iff.mp (List.mem_append_right _ hother)), fun hmem => ?_⟩
  exact List.disjoint_of_nodup_append (hperm.nodup_iff.mpr List.nodup_range) hmem hother

/-- The lists of the nodes are all used when none with ids is indented. -/
theorem usedLists_perm (h : ∀ node ∈ o.nodes, node.2 ≠ [] → node.1 = 0) (hne : o.nodes ≠ []) :
    (o.usedLists.flatMap idsOf).Perm (List.range o.n) := by
  have hothers : ((o.nodes.filter fun node => !isUsed node).flatMap fun node => idsOf node.2) = [] := by
    refine List.flatMap_eq_nil_iff.mpr fun node hnode => ?_
    obtain ⟨hmem, hunused⟩ := List.mem_filter.mp hnode
    have hempty : node.2 = [] := by
      by_contra hcpus
      simp [isUsed, h node hmem hcpus, hcpus] at hunused
    rw [hempty]
    rfl
  have hperm := o.nodes_ids_perm
  rw [hothers, List.append_nil] at hperm
  exact hperm.symm.trans (o.partition hne)

theorem sockets_pos {s : Nat} (hs : o.sockets = some s) : 0 < s := by
  have hdivides := o.divides
  have hpos := o.pos
  rw [hs, Option.getD_some] at hdivides
  refine Nat.pos_of_ne_zero fun hzero => ?_
  rw [hzero, Nat.zero_mul, Nat.zero_mul, Nat.zero_dvd] at hdivides
  omega

/-- With a line of sockets, the map is that of the descriptions, if there are any. -/
theorem cpuMap_of_sockets {s : Nat} (hs : o.sockets = some s) : o.summary.cpuMap =
    if o.summary.numaDescription ≠ [] then some (join '/' o.summary.numaDescription)
    else (do
      let coresPerSocket ← o.summary.coresPerSocket
      let threadsPerCore ← o.summary.threadsPerCore
      let cpusPerSocket := wrap (coresPerSocket * threadsPerCore)
      some (join '/' ((List.range s).map fun i : Nat =>
        rangeText (wrap (i * cpusPerSocket)) (wrap (wrap ((i + 1) * cpusPerSocket) - 1))))) := by
  have hpos := sockets_pos hs
  have hsockets : o.summary.numSockets.filter (0 < ·) = some (s : Int) := by
    simp [summary, hs, Option.filter, hpos]
  rw [cpuMap, hsockets]
  simp only [Int.toNat_natCast]

theorem cpuMap_of_usedLists {s : Nat} (hs : o.sockets = some s) (hused : o.usedLists ≠ [])
    (h : ∀ node ∈ o.nodes, node.2 = [] → node.1 = 0) : o.summary.cpuMap = some (socketsText o.usedLists) := by
  have hdescription := numaDescription_summary h
  rw [cpuMap_of_sockets hs, hdescription, if_pos (by simpa using hused), socketsText]

/-- The map of the sockets, from the number of CPUs of each. -/
def socketRanges (s cpusPerSocket : Nat) (h : 1 ≤ cpusPerSocket) : List (List Interval) :=
  (List.range s).map fun i => [.range (i * cpusPerSocket) (i * cpusPerSocket + cpusPerSocket - 1) (by omega)]

theorem ids_socketRanges (s cpusPerSocket : Nat) (h : 1 ≤ cpusPerSocket) :
    (socketRanges s cpusPerSocket h).flatMap idsOf = List.range (s * cpusPerSocket) := by
  induction s with
  | zero => simp [socketRanges]
  | succ s ih =>
    have hlast : idsOf [.range (s * cpusPerSocket) (s * cpusPerSocket + cpusPerSocket - 1) (by omega)] =
        List.range' (s * cpusPerSocket) cpusPerSocket := by
      have hlength : s * cpusPerSocket + cpusPerSocket - 1 + 1 - s * cpusPerSocket = cpusPerSocket := by omega
      simp [idsOf, Interval.ids, hlength]
    have hrest : socketRanges (s + 1) cpusPerSocket h = socketRanges s cpusPerSocket h ++
        [[.range (s * cpusPerSocket) (s * cpusPerSocket + cpusPerSocket - 1) (by omega)]] := by
      simp [socketRanges, List.range_succ]
    rw [hrest, List.flatMap_append, ih, List.flatMap_singleton, hlast, List.range_eq_range', List.range_eq_range',
      Nat.succ_mul, ← List.range'_append_1, Nat.zero_add]

theorem cpuMap_of_ranges {s c t : Nat} (hs : o.sockets = some s) (hc : o.cores = some c) (ht : o.threads = some t)
    (hint : IsInt o.n) (hpos : 1 ≤ c * t) (hused : o.summary.numaDescription = []) :
    o.summary.cpuMap = some (socketsText (socketRanges s (c * t) hpos)) := by
  have hn := isInt_natCast.mp hint
  have htotal : s * (c * t) = o.n := by rw [← Nat.mul_assoc]; exact o.consistent s c t hs hc ht
  have hcpus : c * t ≤ o.n := by
    rw [← htotal]
    exact Nat.le_mul_of_pos_left _ (sockets_pos hs)
  have hwrap : ∀ m : Nat, m ≤ o.n → wrap (m : Int) = m := fun m hm => wrap_of_isInt (isInt_natCast.mpr (hm.trans hn))
  have hproduct : wrap ((c : Int) * t) = (c * t : Nat) := by
    rw [← Nat.cast_mul]
    exact hwrap _ hcpus
  have hrange : ∀ i ∈ List.range s, rangeText (wrap ((i : Int) * (c * t : Nat))) (wrap (wrap (((i : Int) + 1) * (c * t : Nat)) - 1)) =
      cpusText [.range (i * (c * t)) (i * (c * t) + c * t - 1) (by omega)] := by
    intro i hi
    have hnext : i * (c * t) + c * t ≤ o.n := by
      have hle := Nat.mul_le_mul_right (c * t) (Nat.succ_le_of_lt (List.mem_range.mp hi))
      rwa [htotal, Nat.succ_mul] at hle
    have hlow : wrap ((i : Int) * (c * t : Nat)) = (i * (c * t) : Nat) := by
      rw [← Nat.cast_mul]
      exact hwrap _ (by omega)
    have hhigh : wrap (wrap (((i : Int) + 1) * (c * t : Nat)) - 1) = (i * (c * t) + c * t - 1 : Nat) := by
      have hsum : ((i : Int) + 1) * (c * t : Nat) = (i * (c * t) + c * t : Nat) := by
        rw [← Nat.cast_succ, ← Nat.cast_mul, Nat.succ_mul]
      have hpred : ((i * (c * t) + c * t : Nat) : Int) - 1 = (i * (c * t) + c * t - 1 : Nat) := by omega
      rw [hsum, hwrap _ hnext, hpred, hwrap _ (by omega)]
    rw [hlow, hhigh]
    rfl
  rw [cpuMap_of_sockets hs, if_neg (by simp [hused])]
  simp only [summary, hc, ht, Option.map_some, Option.bind_eq_bind, Option.bind_some, hproduct]
  rw [socketsText, socketRanges, List.map_map]
  exact congrArg (fun texts => some (join '/' texts)) (List.map_congr_left hrange)

/-- Without a line of cores or of threads there is no map then. -/
theorem cpuMap_of_missing {s : Nat} (hs : o.sockets = some s) (hmissing : o.cores = none ∨ o.threads = none)
    (hused : o.summary.numaDescription = []) : o.summary.cpuMap = none := by
  rw [cpuMap_of_sockets hs, if_neg (by simp [hused])]
  rcases hmissing with hc | ht
  · simp [summary, hc]
  · simp [summary, ht]

theorem cpuMap_of_no_sockets (hs : o.sockets = none) : o.summary.cpuMap = some (rangeText 0 o.n) := by
  have hsockets : o.summary.numSockets.filter (0 < ·) = none := by simp [summary, hs]
  rw [cpuMap, hsockets]
  rfl

end Output

/-! ## The slots -/

/-- One slot for each CPU and no other; the nodes are the sockets if their lines are used. -/
structure ListsCpus (o : Output) (sockets : BindToMap) : Prop where
  slots : (sockets.flatten.map Slot.id).Perm ((List.range o.n).map Nat.cast)
  nodes : o.UsesNodes → sockets.map (List.map Slot.id) =
    (o.nodes.filter fun node => node.2 ≠ []).map fun node => (idsOf node.2).map Nat.cast

/-- The number of CPUs is an `int`, there is a line of sockets, and either the lists of
the nodes with CPUs are all read, or none is, and there are the lines of cores and
threads; no line with an empty list is read as one of a node. -/
structure Described (o : Output) : Prop where
  isInt : IsInt o.n
  sockets : o.sockets.isSome
  empty : ∀ node ∈ o.nodes, node.2 = [] → node.1 = 0
  lists : (o.nodes ≠ [] ∧ ∀ node ∈ o.nodes, node.2 ≠ [] → node.1 = 0) ∨
    (∀ node ∈ o.nodes, node.2 ≠ [] → node.1 ≠ 0) ∧ o.cores.isSome ∧ o.threads.isSome

section
variable {o : Output} {numThreads : Int}

theorem ids_of_sockets (sockets : List (List Interval)) :
    (sockets.map fun cpus => (idsOf cpus).map fun i : Nat => (⟨i, -1⟩ : Slot)).flatten.map Slot.id =
      (sockets.flatMap idsOf).map Nat.cast := by
  rw [← List.flatMap_def, List.map_flatMap, List.map_flatMap]
  simp [Function.comp_def]

/-- What a map lists that has the CPUs. -/
theorem exists_listsCpus {sockets : List (List Interval)} (hmap : o.summary.cpuMap = some (socketsText sockets))
    (hint : IsInt o.n) (hsockets : ∀ cpus ∈ sockets, cpus ≠ []) (hids : (sockets.flatMap idsOf).Perm (List.range o.n))
    (hthreads : numThreads ≤ o.n)
    (hnodes : o.UsesNodes → sockets = (o.nodes.filter fun node => node.2 ≠ []).map Prod.snd) :
    ∃ b, (processLsCpuOutput o.text).bind (BindToMap.new numThreads) = some b ∧ ListsCpus o b := by
  have hne : sockets ≠ [] := by
    rintro rfl
    have hlength := hids.length_eq
    rw [List.length_range] at hlength
    have hpos := o.pos
    simp only [List.flatMap_nil, List.length_nil] at hlength
    omega
  have hthreads' : numThreads ≤ (sockets.flatMap idsOf).length := by rwa [hids.length_eq, List.length_range]
  have hnew := BindToMap.new_socketsText hne hsockets (Output.fits_of_perm hint hids) hthreads'
  refine ⟨sockets.map fun cpus => (idsOf cpus).map fun i : Nat => ⟨i, -1⟩, ?_, ?_, ?_⟩
  · rw [Output.processLsCpuOutput_text hint, hmap, Option.bind_some]
    exact hnew
  · rw [ids_of_sockets]
    exact hids.map _
  · intro huses
    rw [hnodes huses]
    simp [Function.comp_def]

theorem Described.listsCpus (h : Described o) (hthreads : numThreads ≤ o.n) :
    ∃ b, (processLsCpuOutput o.text).bind (BindToMap.new numThreads) = some b ∧ ListsCpus o b := by
  obtain ⟨s, hs⟩ := Option.isSome_iff_exists.mp h.sockets
  rcases h.lists with ⟨hne, hindent⟩ | ⟨hindent, hcores, hthreadsLine⟩
  · have hids := Output.usedLists_perm hindent hne
    have hused : o.usedLists ≠ [] := by
      intro hnil
      rw [hnil] at hids
      have hlength := hids.length_eq
      have hpos := o.pos
      simp only [List.flatMap_nil, List.length_nil, List.length_range] at hlength
      omega
    refine exists_listsCpus (Output.cpuMap_of_usedLists hs hused h.empty) h.isInt
      (fun cpus => Output.usedLists_ne_nil) hids hthreads fun _ => ?_
    refine congrArg (List.map Prod.snd) (List.filter_congr fun node hnode => ?_)
    by_cases hcpus : node.2 = []
    · simp [Output.isUsed, hcpus]
    · simp [Output.isUsed, hcpus, hindent node hnode hcpus]
  · obtain ⟨c, hc⟩ := Option.isSome_iff_exists.mp hcores
    obtain ⟨t, ht⟩ := Option.isSome_iff_exists.mp hthreadsLine
    have htotal : s * (c * t) = o.n := by rw [← Nat.mul_assoc]; exact o.consistent s c t hs hc ht
    have hpos : 1 ≤ c * t := by
      have hn := o.pos
      rw [← htotal] at hn
      exact Nat.pos_of_mul_pos_left hn
    have hunused : ∀ node ∈ o.nodes, Output.isUsed node = false := by
      intro node hnode
      by_cases hcpus : node.2 = []
      · simp [Output.isUsed, hcpus]
      · simp [Output.isUsed, hindent node hnode hcpus]
    have hlists : o.usedLists = [] := by
      rw [Output.usedLists, List.filter_eq_nil_iff.mpr fun node hnode => by simp [hunused node hnode]]
      rfl
    have hdescription : o.summary.numaDescription = [] := by
      rw [Output.numaDescription_summary h.empty, hlists]
      rfl
    refine exists_listsCpus (Output.cpuMap_of_ranges hs hc ht h.isInt hpos hdescription) h.isInt ?_ ?_ hthreads ?_
    · intro cpus hcpus
      obtain ⟨i, -, rfl⟩ := List.mem_map.mp hcpus
      exact List.cons_ne_nil _ _
    · rw [Output.ids_socketRanges, htotal]
    · rintro ⟨-, node, hnode, hused⟩
      rw [hunused node hnode] at hused
      cases hused

/-- The constructor raises when it finds a label in the place of a list. -/
theorem new_of_label {texts : List Text} (h : cpusLabel ∈ texts) (hne : ∀ text ∈ texts, text ≠ [] ∧ '/' ∉ text) :
    BindToMap.new numThreads (join '/' texts) = none := by
  have hlabel : BindToMap.readSocket cpusLabel = none := by decide
  rw [BindToMap.new, fields_join (List.ne_nil_of_mem h) hne, mapM_eq_none h hlabel]
  rfl

/-- Without a line of sockets one id too many is listed, or none. -/
theorem not_listsCpus_of_no_sockets {b : BindToMap} (hn : IsInt o.n)
    (hb : BindToMap.new numThreads (rangeText 0 o.n) = some b) (hthreads : numThreads ≤ o.n) : ¬ ListsCpus o b := by
  intro h
  have hlength := h.slots.length_eq
  rw [List.length_map, List.length_map, List.length_range] at hlength
  have hpos := o.pos
  by_cases hmax : o.n = 2147483647
  · -- the number of ids is no `int`: none is listed
    have hread : (fields '/' (rangeText 0 2147483647)).mapM BindToMap.readSocket = some [(-2147483648, [])] := by decide
    have hcast : (o.n : Int) = 2147483647 := by omega
    rw [hcast, BindToMap.new, hread] at hb
    simp [BindToMap.auxiliarConstructor, BindToMap.replicateSockets] at hb
    rw [← hb] at hlength
    simp only [List.flatten_cons, List.flatten_nil, List.append_nil, List.length_nil] at hlength
    omega
  · have hint : IsInt (o.n + 1 : Nat) := isInt_natCast.mpr (by have := isInt_natCast.mp hn; omega)
    have hids : ([[Interval.range 0 o.n (Nat.zero_le _)]] : List (List Interval)).flatMap idsOf = List.range (o.n + 1) := by
      simp [idsOf, Interval.ids, List.range_eq_range']
    have hfits : Fits (([[Interval.range 0 o.n (Nat.zero_le _)]] : List (List Interval)).flatMap idsOf) :=
      Output.fits_of_perm hint (by rw [hids])
    have hnew : BindToMap.new numThreads (rangeText 0 o.n) =
        some ([[Interval.range 0 o.n (Nat.zero_le _)]].map fun cpus => (idsOf cpus).map fun i : Nat => ⟨i, -1⟩) :=
      BindToMap.new_socketsText (List.cons_ne_nil _ _) (by simp) hfits (by rw [hids, List.length_range]; omega)
    rw [hnew, Option.some.injEq] at hb
    have hslots := congrArg List.length (ids_of_sockets [[Interval.range 0 o.n (Nat.zero_le _)]])
    rw [hb, hids, List.length_map, List.length_map, List.length_range, hlength] at hslots
    omega

theorem ListsCpus.described {b : BindToMap} (hthreads : numThreads ≤ o.n)
    (hb : (processLsCpuOutput o.text).bind (BindToMap.new numThreads) = some b) (h : ListsCpus o b) : Described o := by
  have hint : IsInt o.n := by
    by_contra hint
    rw [Output.processLsCpuOutput_none hint] at hb
    cases hb
  rw [Output.processLsCpuOutput_text hint] at hb
  obtain ⟨s, hs⟩ : ∃ s, o.sockets = some s := by
    rw [← Option.isSome_iff_exists]
    by_contra hs
    rw [Output.cpuMap_of_no_sockets (by simpa using hs)] at hb
    exact not_listsCpus_of_no_sockets hint hb hthreads h
  have hempty : ∀ node ∈ o.nodes, node.2 = [] → node.1 = 0 := by
    intro node hnode hcpus
    by_contra hindent
    have hlabel : cpusLabel ∈ o.summary.numaDescription :=
      List.mem_filterMap.mpr ⟨node, hnode, by simp [nodeDescription, hindent, hcpus]⟩
    rw [Output.cpuMap_of_sockets hs, if_pos (List.ne_nil_of_mem hlabel), Option.bind_some,
      new_of_label hlabel fun text htext => ?_] at hb
    · cases hb
    · obtain ⟨node, -, htext⟩ := List.mem_filterMap.mp htext
      exact nodeDescription_text htext
  have hdescription := Output.numaDescription_summary hempty
  refine ⟨hint, by simp [hs], hempty, ?_⟩
  by_cases hused : o.usedLists = []
  · -- no list is read: the map is made of the numbers
    rw [hused, List.map_nil] at hdescription
    refine .inr ⟨fun node hnode hcpus hindent => ?_, ?_, ?_⟩
    · have hmem : node.2 ∈ o.usedLists := List.mem_map_of_mem (List.mem_filter.mpr ⟨hnode, by simp [Output.isUsed, *]⟩)
      rw [hused] at hmem
      cases hmem
    · by_contra hcores
      rw [Output.cpuMap_of_missing hs (.inl (by simpa using hcores)) hdescription] at hb
      cases hb
    · by_contra hthreadsLine
      rw [Output.cpuMap_of_missing hs (.inr (by simpa using hthreadsLine)) hdescription] at hb
      cases hb
  · rw [Output.cpuMap_of_usedLists hs hused hempty, Option.bind_some] at hb
    obtain ⟨cpus, hcpus⟩ := List.exists_mem_of_ne_nil _ hused
    obtain ⟨node, hnode, -⟩ := List.mem_map.mp hcpus
    have hne : o.nodes ≠ [] := List.ne_nil_of_mem (List.mem_of_mem_filter hnode)
    refine .inl ⟨hne, fun node hnode hcpus => ?_⟩
    by_contra hindent
    -- an id of the list is in no other list, so in none that is read
    obtain ⟨i, hi, hnot⟩ := Output.exists_not_mem_usedLists hnode hcpus (by simp [Output.isUsed, hindent])
    have hfits : Fits (o.usedLists.flatMap idsOf) :=
      (Output.fits_of_perm hint (o.nodes_ids_perm.symm.trans (o.partition hne))).of_append
    rw [BindToMap.new_socketsText_eq numThreads hused (fun cpus => Output.usedLists_ne_nil) hfits] at hb
    have hlisted : (i : Int) ∈ b.flatten.map Slot.id :=
      h.slots.mem_iff.mpr (List.mem_map_of_mem (List.mem_range.mpr hi))
    have hread := BindToMap.auxiliarConstructor_subset hb hlisted
    rw [flatten_ids, List.mem_map] at hread
    obtain ⟨j, hj, hij⟩ := hread
    rw [Nat.cast_injective hij] at hj
    exact hnot hj

/-- The map read of an output lists its CPUs, each once, exactly when the output
describes them with its sockets. -/
theorem listsCpus_iff_described (o : Output) (numThreads : Int) (hthreads : numThreads ≤ o.n) :
    (∃ b, (processLsCpuOutput o.text).bind (BindToMap.new numThreads) = some b ∧ ListsCpus o b) ↔ Described o :=
  ⟨fun ⟨_, hb, h⟩ => h.described hthreads hb, fun h => h.listsCpus hthreads⟩

/-- Sixteen CPUs. -/
def ofCpus : Output where
  lines := [.entry 0 0 0 (.cpus 16)]
  n := 16
  sockets := none
  cores := none
  threads := none
  cpusLine := rfl
  socketsLine := rfl
  coresLine := rfl
  threadsLine := rfl
  pos := by decide
  divides := by decide
  consistent s c t hs := by cases hs
  partition h := absurd rfl h

/-- Two nodes with the CPUs 0 and 1, and one socket. -/
def ofNodes : Output where
  lines := [.entry 0 0 0 (.cpus 2), .entry 0 3 1 (.sockets 1), .entry 0 5 0 (.node 0 [.id 1]), .entry 0 5 0 (.node 1 [.id 0])]
  n := 2
  sockets := some 1
  cores := none
  threads := none
  cpusLine := rfl
  socketsLine := rfl
  coresLine := rfl
  threadsLine := rfl
  pos := by decide
  divides := by decide
  consistent s c t _ hc := by cases hc
  partition _ := by decide

theorem listsCpus_iff_described_nodes :
    (∃ b, (processLsCpuOutput ofNodes.text).bind (BindToMap.new 2) = some b ∧ ListsCpus ofNodes b) ↔ Described ofNodes :=
  listsCpus_iff_described ofNodes 2 (by decide)

/-- A count without a line of sockets: the id 16 is listed. -/
theorem cpusOnly_lists_next :
    ¬ ∃ b, (processLsCpuOutput ofCpus.text).bind (BindToMap.new 16) = some b ∧ ListsCpus ofCpus b := by
  rintro ⟨b, hb, h⟩
  have hcount : ((processLsCpuOutput ofCpus.text).bind (BindToMap.new 16)).map (fun b => (b.flatten.map Slot.id).length) =
      some 17 := by decide +kernel
  rw [hb, Option.map_some, Option.some.injEq, h.slots.length_eq] at hcount
  exact absurd hcount (by decide)

end

end LsCpu

end Compss.Worker
