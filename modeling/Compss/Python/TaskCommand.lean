/-
What the worker process recovers of the command of a task.

The line falls apart into the words it was made of, and every part is found
where it was put, but for the slave nodes: `execute_task` starts to collect
them at their count (`recovers_iff`).
-/
import Compss.Lib.Traverse
import Compss.Python.PiperWorker

namespace Compss.Python

open Lib Lib.Text
open Executors Executors.ExternalExecutor PiperWorker

/-! ## Words -/

theorem isSpace_of_isDigit {c : Char} (h : c.isDigit = true) : isSpace c = false := by
  have hc : 48 ≤ c.toNat ∧ c.toNat ≤ 57 := by
    simpa [Char.isDigit, UInt32.le_iff_toNat_le] using h
  simp only [isSpace, Bool.or_eq_false_iff, Bool.and_eq_false_iff, decide_eq_false_iff_not, List.contains_eq_mem,
    List.mem_cons, List.not_mem_nil, or_false]
  omega

theorem decimal_word (i : Int) : IsWord isSpace (decimal i) :=
  decimal_isWord (fun _ => isSpace_of_isDigit) (by decide) i

theorem boolText_word (b : Bool) : IsWord isSpace (boolText b) := by cases b <;> decide

theorem affinity_word (units : List Int) : IsWord isSpace (affinity units) := by
  unfold affinity
  split
  · decide
  · next hne =>
    refine join_isWord (by decide) ?_ fun w hw => ?_
    · match units, hne with
      | [i], _ => exact (decimal_word i).1
      | i :: j :: units, _ => simp [join_cons_cons]
    · obtain ⟨i, -, rfl⟩ := List.mem_map.mp hw
      exact (decimal_word i).2

/-! ## Tasks of Python methods -/

/-- A parameter of a Python method, whose texts have no white space. -/
structure PythonParam (np : NIOParam) : Prop where
  type : np.type ∈ ([.FILE_T, .EXTERNAL_OBJECT_T, .STRING_T, .INT_T, .LONG_T, .DOUBLE_T, .BOOLEAN_T] : List DataType)
  pre : IsWord isSpace np.pre
  value : ∃ v, np.value = some v ∧ IsWord isSpace v
  data : ∀ name, np.data = some name → IsWord isSpace name
  originalName : IsWord isSpace np.originalName

/-- A task of a Python method without a return value, whose texts have no white
space. -/
structure PythonTask (env : ExecutorEnv) (nt : NIOTask) : Prop where
  hasReturn : nt.hasReturn = false
  numParams : nt.numParams = nt.params.length
  declaringClass : IsWord isSpace nt.declaringClass
  methodName : IsWord isSpace nt.alternativeMethodName
  slaves : ∀ name ∈ nt.slaveWorkersNodeNames, IsWord isSpace name
  params : ∀ np ∈ nt.params, PythonParam np
  storageConf : IsWord isSpace env.storageConf
  outputsBasename : IsWord isSpace env.outputsBasename
  hostnames : ∀ names, env.hostnames = some names → names = [] ∨ IsWord isSpace names

/-- The value of a parameter, as it is put into the command. -/
def rawValue (np : NIOParam) : Text :=
  let value := np.value.getD []
  if np.type = .FILE_T then fileArgument np value else value

def sentParam (np : NIOParam) : InputParam := ⟨np.type.ordinal, np.stream.ordinal, np.pre, rawValue np⟩

/-- The words of a parameter. -/
def paramWords (np : NIOParam) : List Text :=
  decimal np.type.ordinal :: decimal np.stream.ordinal :: np.pre :: valueArguments np (np.value.getD [])

theorem mem_fileName {path : Text} {x : Char} (h : x ∈ fileName path) : x ∈ path := by
  unfold fileName at h
  cases hl : ((path.splitOn '/').filter (· ≠ [])).getLast? with
  | none => rw [hl] at h; cases h
  | some w =>
    rw [hl, Option.getD_some] at h
    have hw := (List.mem_filter.mp (List.mem_of_getLast? hl)).1
    rw [List.splitOn_eq_splitOnP] at hw
    exact mem_of_mem_splitOnP hw x h

theorem fileArgument_word {np : NIOParam} (h : PythonParam np) {v : Text} (hv : IsWord isSpace v) :
    IsWord isSpace (fileArgument np v) := by
  have hdata : ∀ x ∈ np.data.getD [], isSpace x = false := by
    cases hd : np.data with
    | none => simp
    | some name => exact (h.data name hd).2
  refine join_isWord (by decide) (by simp [join_cons_cons]) fun w hw => ?_
  simp only [List.mem_cons, List.not_mem_nil, or_false] at hw
  rcases hw with rfl | rfl | rfl | rfl | rfl
  · exact hdata
  · split
    · exact fun x hx => hv.2 x (mem_fileName hx)
    · exact hdata
  · exact (boolText_word _).2
  · exact (boolText_word _).2
  · exact h.originalName.2

theorem fields_of_word {v : Text} (hv : IsWord isSpace v) : fields ' ' v = [v] :=
  fields_of_not_mem fun h => absurd (hv.2 ' ' h) (by decide)

/-- The words of the value, by the type of the parameter. -/
theorem valueArguments_cases {np : NIOParam} (h : PythonParam np) {v : Text} (hv : IsWord isSpace v) :
    (np.type = .FILE_T ∧ valueArguments np v = [fileArgument np v]) ∨
    (np.type = .EXTERNAL_OBJECT_T ∧ valueArguments np v = [v, if np.writeFinalValue then "W".toList else "R".toList]) ∨
    (np.type = .STRING_T ∧ valueArguments np v = [decimal 1, v]) ∨
    (np.type ∈ ([.INT_T, .LONG_T, .DOUBLE_T, .BOOLEAN_T] : List DataType) ∧ valueArguments np v = [v]) := by
  have htype := h.type
  simp only [List.mem_cons, List.not_mem_nil, or_false] at htype
  rcases htype with ht | ht | ht | ht | ht | ht | ht <;>
    simp [valueArguments, ht, fields_of_word hv]

theorem paramWords_words {np : NIOParam} (h : PythonParam np) : ∀ w ∈ paramWords np, IsWord isSpace w := by
  obtain ⟨v, hv, hword⟩ := h.value
  have hvalue : ∀ w ∈ valueArguments np v, IsWord isSpace w := by
    intro w hw
    rcases valueArguments_cases h hword with ⟨-, heq⟩ | ⟨-, heq⟩ | ⟨-, heq⟩ | ⟨-, heq⟩ <;> rw [heq] at hw <;>
      simp only [List.mem_cons, List.not_mem_nil, or_false] at hw
    · rw [hw]; exact fileArgument_word h hword
    · rcases hw with rfl | rfl
      · exact hword
      · cases np.writeFinalValue <;> decide
    · rcases hw with rfl | rfl
      · exact decimal_word _
      · exact hword
    · rw [hw]; exact hword
  intro w hw
  simp only [paramWords, hv, Option.getD_some, List.mem_cons] at hw
  rcases hw with rfl | rfl | rfl | hw
  · exact decimal_word _
  · exact decimal_word _
  · exact h.pre
  · exact hvalue w hw

/-! ## Reading the parameters -/

/-- The raw value, and the words it takes. -/
theorem inputValue_sent {np : NIOParam} (h : PythonParam np) {v : Text} (hv : np.value = some v) (hword : IsWord isSpace v)
    (t s : Text) (rest : List Text) : ∃ a as, valueArguments np v = a :: as ∧
      inputValue np.type.ordinal a (t :: s :: np.pre :: (a :: as ++ rest)) = some (rawValue np, as.length) := by
  rcases valueArguments_cases h hword with ⟨ht, heq⟩ | ⟨ht, heq⟩ | ⟨ht, heq⟩ | ⟨ht, heq⟩
  · exact ⟨_, _, heq, by simp [inputValue, rawValue, ht, hv]⟩
  · exact ⟨_, _, heq, by simp [inputValue, rawValue, ht, hv, DataType.ordinal]⟩
  · -- One word, after its count.
    refine ⟨_, _, heq, ?_⟩
    have hlen : ¬ ((t :: s :: np.pre :: ([decimal 1, v] ++ rest)).length : Int) < 1 + 4 := by
      simp only [List.length_cons, List.length_append, List.length_nil]
      omega
    simp only [inputValue, ht, DataType.ordinal, parseInt?_decimal, Option.bind_eq_bind, Option.bind_some, if_neg hlen]
    simp [rawValue, ht, hv, join]
  · refine ⟨_, _, heq, ?_⟩
    simp only [List.mem_cons, List.not_mem_nil, or_false] at ht
    rcases ht with ht | ht | ht | ht <;> simp [inputValue, rawValue, ht, hv, DataType.ordinal]

/-- A parameter is read as it was sent, whatever follows it. -/
theorem getInputParams_cons {np : NIOParam} (h : PythonParam np) (n : Nat) (rest : List Text) :
    getInputParams (n + 1) (paramWords np ++ rest) = (getInputParams n rest).map (sentParam np :: ·) := by
  obtain ⟨v, hv, hword⟩ := h.value
  obtain ⟨a, as, heq, hvalue⟩ :=
    inputValue_sent h hv hword (decimal np.type.ordinal) (decimal np.stream.ordinal) rest
  have hargs : paramWords np ++ rest = decimal np.type.ordinal :: decimal np.stream.ordinal :: np.pre :: (a :: as ++ rest) := by
    simp [paramWords, hv, heq]
  have hdrop : (paramWords np ++ rest).drop (4 + as.length) = rest := by
    rw [hargs, show 4 + as.length = as.length + 1 + 1 + 1 + 1 by omega]
    simp
  have h0 : (paramWords np ++ rest)[0]? = some (decimal np.type.ordinal) := by rw [hargs]; rfl
  have h1 : (paramWords np ++ rest)[1]? = some (decimal np.stream.ordinal) := by rw [hargs]; rfl
  have h2 : (paramWords np ++ rest)[2]? = some np.pre := by rw [hargs]; rfl
  have h3 : (paramWords np ++ rest)[3]? = some a := by rw [hargs]; rfl
  rw [← hargs] at hvalue
  rw [getInputParams]
  simp only [h0, h1, h2, h3, hvalue, hdrop, Option.bind_eq_bind, Option.bind_some, parseInt?_decimal]
  cases getInputParams n rest <;> rfl

theorem getInputParams_sent : ∀ {params : List NIOParam}, (∀ np ∈ params, PythonParam np) →
    getInputParams params.length (params.flatMap paramWords) = some (params.map sentParam)
  | [], _ => rfl
  | np :: params, h => by
    rw [List.length_cons, List.flatMap_cons, getInputParams_cons (h np (by simp)),
      getInputParams_sent fun q hq => h q (by simp [hq])]
    rfl

/-! ## Reading the command -/

theorem mapM_getElem? {α : Type} {l : List α} : ∀ (k start : Nat), start + k ≤ l.length →
    (List.range' start k).mapM (fun i => l[i]?) = some ((l.drop start).take k)
  | 0, start, _ => by simp
  | k + 1, start, hle => by
    have hlt : start < l.length := by omega
    rw [List.range'_succ, List.mapM_cons, mapM_getElem? k (start + 1) (by omega), List.getElem?_eq_getElem hlt,
      List.drop_eq_getElem_cons hlt, List.take_succ_cons]
    rfl

/-- The slave nodes are collected from their count on: the last one is missed. -/
theorem executeTask_head (nt : NIOTask) (returnType : Text) (rest : List Text) (ps : List InputParam)
    (hrest : getInputParams nt.numParams rest = some ps) : executeTask (headArguments nt returnType ++ rest) =
      some ⟨nt.declaringClass, nt.alternativeMethodName,
        (decimal nt.slaveWorkersNodeNames.length :: nt.slaveWorkersNodeNames).take nt.slaveWorkersNodeNames.length,
        decimal nt.totalCPUComputingUnits, boolText nt.hasTarget, returnType, nt.numParams, ps⟩ := by
  set k := nt.slaveWorkersNodeNames.length with hk
  obtain ⟨tail, htail⟩ : ∃ tail, tail =
      decimal nt.totalCPUComputingUnits :: boolText nt.hasTarget :: returnType :: decimal nt.numParams :: rest := ⟨_, rfl⟩
  obtain ⟨l, hl⟩ : ∃ l, l = headArguments nt returnType ++ rest := ⟨_, rfl⟩
  have hparams : l = nt.declaringClass :: nt.alternativeMethodName :: decimal k :: (nt.slaveWorkersNodeNames ++ tail) := by
    simp [hl, headArguments, htail, hk]
  have h0 : l[0]? = some nt.declaringClass := by rw [hparams]; rfl
  have h1 : l[1]? = some nt.alternativeMethodName := by rw [hparams]; rfl
  have h2 : l[2]? = some (decimal k) := by rw [hparams]; rfl
  have hslaves : readSlaves l k = some ((decimal k :: nt.slaveWorkersNodeNames).take k) := by
    have hlen : 2 + k ≤ l.length := by
      rw [hparams]
      simp only [List.length_cons, List.length_append]
      omega
    rw [readSlaves, mapM_getElem? k 2 hlen, hparams, List.drop_succ_cons, List.drop_succ_cons, List.drop_zero,
      ← List.cons_append, List.take_append_of_le_length (by rw [List.length_cons]; omega)]
  have hdrop : l.drop (3 + k) = tail := by
    rw [hparams, Nat.add_comm 3 k, List.drop_succ_cons, List.drop_succ_cons, List.drop_succ_cons, hk, List.drop_left]
  rw [← hl, executeTask]
  simp only [h0, h1, h2, Option.bind_eq_bind, Option.bind_some, parseInt?_decimal, Int.toNat_natCast, hslaves, hdrop]
  simp [htail, hrest]

/-- The line of a task, and what the process reads of it. -/
theorem processTask_words (jobId out err tracing taskId debug storage cpus gpus hosts : Text) {args : List Text}
    {x : ExecuteTask} (hx : executeTask args = some x)
    (hwords : ∀ w ∈ ["task".toList, jobId, out, err, tracing, taskId, debug, storage, "METHOD".toList] ++ args ++
      [cpus, gpus, hosts], IsWord isSpace w) :
    processTask (join ' ' (["task".toList, jobId, out, err, tracing, taskId, debug, storage, "METHOD".toList] ++ args ++
      [cpus, gpus, hosts]) ++ ['\n']) = some ⟨jobId, out, err, cpus, gpus, hosts, x⟩ := by
  set first := ["task".toList, jobId, out, err, tracing, taskId, debug, storage, "METHOD".toList] ++ args with hfirst
  have hlen : (first ++ [cpus, gpus, hosts]).length - 3 = first.length := by simp
  have hlast : ∀ i, i < 3 → (first ++ [cpus, gpus, hosts])[(first ++ [cpus, gpus, hosts]).length - (3 - i)]? =
      [cpus, gpus, hosts][i]? := by
    intro i hi
    rw [List.getElem?_append_right (by simp; omega)]
    congr 1
    simp
    omega
  have htake : (first ++ [cpus, gpus, hosts]).take ((first ++ [cpus, gpus, hosts]).length - 3) = first := by
    rw [hlen, List.take_left]
  have htag : ¬ ((first ++ [cpus, gpus, hosts])[0]? ≠ some "task".toList ∨ (first ++ [cpus, gpus, hosts]).length < 3) := by
    simp [hfirst]
  have hdrop : first.drop 9 = args := rfl
  rw [processTask, words_join (by decide) (by decide) _ hwords]
  simp only [if_neg htag, hlast 0 (by decide), hlast 1 (by decide), hlast 2 (by decide), htake, hdrop, hx]
  simp only [hfirst]
  rfl

/-- One more in front, and the last one missed. -/
theorem take_cons_eq_iff {α : Type} (a : α) : ∀ l : List α, (a :: l).take l.length = l ↔ ∀ x ∈ l, x = a
  | [] => by simp
  | b :: l => by
    rw [List.length_cons, List.take_succ_cons, List.cons.injEq, take_cons_eq_iff b l]
    constructor
    · rintro ⟨rfl, h⟩ x hx
      rcases List.mem_cons.mp hx with rfl | hx
      · rfl
      · exact h x hx
    · intro h
      obtain rfl := h b (by simp)
      exact ⟨rfl, fun x hx => h x (by simp [hx])⟩

/-- What a task is sent as. -/
theorem addArguments_sent {env : ExecutorEnv} {nt : NIOTask} (h : PythonTask env nt) : addArguments env nt =
    some ([boolText env.tracing, decimal nt.taskId, boolText nt.workerDebug, env.storageConf, "METHOD".toList] ++
      (headArguments nt "null".toList ++ nt.params.flatMap paramWords)) := by
  have hparams : nt.params.mapM paramArguments = some (nt.params.map paramWords) := by
    refine mapM_eq_some_map fun np hnp => ?_
    obtain ⟨v, hv, -⟩ := (h.params np hnp).value
    rw [paramArguments, hv, paramWords, hv]
    rfl
  have hreturn : returnArgument nt = some "null".toList := by rw [returnArgument, h.hasReturn]; rfl
  rw [addArguments, hreturn, hparams, List.flatMap_def]
  simp

theorem headArguments_words {env : ExecutorEnv} {nt : NIOTask} (h : PythonTask env nt) :
    ∀ w ∈ headArguments nt "null".toList, IsWord isSpace w := by
  intro w hw
  simp only [headArguments, List.mem_append, List.mem_cons, List.not_mem_nil, or_false] at hw
  rcases hw with ((rfl | rfl | rfl) | hw) | rfl | rfl | rfl | rfl
  · exact h.declaringClass
  · exact h.methodName
  · exact decimal_word _
  · exact h.slaves w hw
  · exact decimal_word _
  · exact boolText_word _
  · decide
  · exact decimal_word _

theorem hostlist_word {env : ExecutorEnv} {nt : NIOTask} (h : PythonTask env nt) : IsWord isSpace (hostlist env) := by
  unfold hostlist
  cases hn : env.hostnames with
  | none => decide
  | some names =>
    rcases h.hostnames names hn with rfl | hword
    · decide
    · simp only [if_neg hword.1]
      exact hword

theorem append_word {s t : Text} (hs : IsWord isSpace s) (ht : IsWord isSpace t) : IsWord isSpace (s ++ t) :=
  ⟨by simp [hs.1], fun c hc => (List.mem_append.mp hc).elim (hs.2 c) (ht.2 c)⟩

/-- What the process reads of the task. -/
def readTask (env : ExecutorEnv) (nt : NIOTask) : ReceivedTask where
  jobId := decimal nt.jobId
  jobOut := env.outputsBasename ++ ".out".toList
  jobErr := env.outputsBasename ++ ".err".toList
  bindedCpus := affinity env.assignedCoreUnits
  bindedGpus := affinity env.assignedGPUs
  hostlist := hostlist env
  task :=
    { path := nt.declaringClass
      methodName := nt.alternativeMethodName
      slaves := (decimal nt.slaveWorkersNodeNames.length :: nt.slaveWorkersNodeNames).take nt.slaveWorkersNodeNames.length
      cus := decimal nt.totalCPUComputingUnits
      hasTarget := boolText nt.hasTarget
      returnType := "null".toList
      numParams := nt.numParams
      parameters := nt.params.map sentParam }

/-- The command is written, and read. -/
theorem processTask_taskCMD {env : ExecutorEnv} {nt : NIOTask} (h : PythonTask env nt) :
    ∃ line, taskCMD env nt = some line ∧ processTask line = some (readTask env nt) := by
  have hargs := addArguments_sent h
  have hexec := executeTask_head nt "null".toList (nt.params.flatMap paramWords) (nt.params.map sentParam)
    (by rw [h.numParams]; exact getInputParams_sent h.params)
  have hread := processTask_words (decimal nt.jobId) (env.outputsBasename ++ ".out".toList)
    (env.outputsBasename ++ ".err".toList) (boolText env.tracing) (decimal nt.taskId) (boolText nt.workerDebug)
    env.storageConf (affinity env.assignedCoreUnits) (affinity env.assignedGPUs) (hostlist env) hexec (by
      intro w hw
      simp only [List.mem_append, List.mem_cons, List.not_mem_nil, or_false] at hw
      rcases hw with ((rfl | rfl | rfl | rfl | rfl | rfl | rfl | rfl | rfl) | hw | hw) | rfl | rfl | rfl
      · decide
      · exact decimal_word _
      · exact append_word h.outputsBasename (by decide)
      · exact append_word h.outputsBasename (by decide)
      · exact boolText_word _
      · exact decimal_word _
      · exact boolText_word _
      · exact h.storageConf
      · decide
      · exact headArguments_words h w hw
      · obtain ⟨np, hnp, hw⟩ := List.mem_flatMap.mp hw
        exact paramWords_words (h.params np hnp) w hw
      · exact affinity_word _
      · exact affinity_word _
      · exact hostlist_word h)
  exact ⟨_, by rw [taskCMD, hargs]; rfl, hread⟩

/-- The line is read as the task. -/
def Recovers (nt : NIOTask) (line : Text) : Prop :=
  ∃ r, processTask line = some r ∧ r.jobId = decimal nt.jobId ∧ r.task.path = nt.declaringClass ∧
    r.task.methodName = nt.alternativeMethodName ∧ r.task.slaves = nt.slaveWorkersNodeNames ∧
    r.task.cus = decimal nt.totalCPUComputingUnits ∧ r.task.hasTarget = boolText nt.hasTarget ∧
    r.task.numParams = nt.numParams ∧ r.task.parameters = nt.params.map sentParam

/-- **The command of a task.** It is read as the task, part by part, exactly
when the slave nodes have all the name that their count is written as; so it is
when there is none. -/
theorem recovers_iff {env : ExecutorEnv} {nt : NIOTask} (h : PythonTask env nt) : ∃ line, taskCMD env nt = some line ∧
    (Recovers nt line ↔ ∀ name ∈ nt.slaveWorkersNodeNames, name = decimal nt.slaveWorkersNodeNames.length) := by
  obtain ⟨line, hline, hread⟩ := processTask_taskCMD h
  refine ⟨line, hline, ?_⟩
  rw [← take_cons_eq_iff]
  constructor
  · rintro ⟨r, hr, -, -, -, hslaves, -⟩
    rw [hread] at hr
    cases hr
    exact hslaves
  · intro hslaves
    exact ⟨_, hread, rfl, rfl, rfl, hslaves, rfl, rfl, rfl, rfl⟩

/-- A task with a string and a file, on a node with these slaves. -/
def exampleEnv : ExecutorEnv where
  tracing := false
  storageConf := "null".toList
  hostnames := some "node1".toList
  outputsBasename := "/tmp/job1".toList
  assignedCoreUnits := [0, 1]
  assignedGPUs := []

def exampleTask (slaves : List Text) : NIOTask where
  jobId := 1
  taskId := 1
  workerDebug := false
  declaringClass := "app".toList
  alternativeMethodName := "f".toList
  slaveWorkersNodeNames := slaves
  totalCPUComputingUnits := 2
  hasTarget := false
  hasReturn := false
  params := [⟨.STRING_T, .UNSPECIFIED, "null".toList, false, false, some "YWJj".toList, none, "NO_NAME".toList⟩,
    ⟨.FILE_T, .UNSPECIFIED, "null".toList, true, true, some "/tmp/d1v2_1.IT".toList, some "d1v1_1.IT".toList,
      "out".toList⟩]
  numParams := 2

theorem pythonTask_example (slaves : List Text) (h : ∀ name ∈ slaves, IsWord isSpace name) :
    PythonTask exampleEnv (exampleTask slaves) where
  hasReturn := rfl
  numParams := rfl
  declaringClass := (by decide : IsWord isSpace "app".toList)
  methodName := (by decide : IsWord isSpace "f".toList)
  slaves := h
  params := by
    intro np hnp
    simp only [exampleTask, List.mem_cons, List.not_mem_nil, or_false] at hnp
    rcases hnp with rfl | rfl
    · exact ⟨by decide, by decide, ⟨_, rfl, by decide⟩, by decide, by decide⟩
    · exact ⟨by decide, by decide, ⟨_, rfl, by decide⟩, by rintro name ⟨⟩; decide, by decide⟩
  storageConf := by decide
  outputsBasename := by decide
  hostnames := by rintro names ⟨⟩; exact .inr (by decide)

theorem recovers_oneNode : ∃ line, taskCMD exampleEnv (exampleTask []) = some line ∧ Recovers (exampleTask []) line := by
  obtain ⟨line, hline, hrec⟩ := recovers_iff (pythonTask_example [] (by simp))
  exact ⟨line, hline, hrec.mpr (by simp [exampleTask])⟩

/-- With one slave node its count is read as its name. -/
theorem slaveNode_lost : ∃ line, taskCMD exampleEnv (exampleTask ["node2".toList]) = some line ∧
    ¬ Recovers (exampleTask ["node2".toList]) line := by
  obtain ⟨line, hline, hread⟩ := processTask_taskCMD (pythonTask_example ["node2".toList] (by simp; decide))
  refine ⟨line, hline, ?_⟩
  rintro ⟨r, hr, -, -, -, hslaves, -⟩
  rw [hread] at hr
  cases hr
  exact absurd hslaves (by decide)

end Compss.Python
