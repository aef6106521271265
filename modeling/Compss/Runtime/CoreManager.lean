/-
`CoreManager`: the core elements with their implementations and signatures,
and the core each signature stands for; `CERegistration`, which registers an
implementation of a core element under the next number.

Core elements and implementations share the table of signatures, in which the
last registration wins. `ErrorManager.error` starts the shutdown and comes
back, so what follows it is done. What `EnvironmentLoader` makes of an argument
is a parameter; the resources and the scheduler, told of the new core, are left
out.
-/
import Compss.Lib.Run
import Compss.Lib.Traverse
import Mathlib.Logic.Function.Basic

namespace Compss.Runtime

open Lib

inductive MethodType
  | method
  | mpi
  | ompss
  | openCL
  | binary
  | decaf
  deriving DecidableEq, Repr

variable {ρ : Type}

/-- The arguments of a method are its class and name, of the other types the binary,
the working directory and what else they take. -/
structure Implementation (ρ : Type) where
  coreId : Int
  implId : Int
  type : MethodType
  args : List String
  requirements : ρ

structure CoreManager (ρ : Type) where
  implementations : List (List (Implementation ρ))
  /-- The signature of the core element, then those of its implementations. -/
  signatures : List (List String)
  signatureToCoreId : String → Option Nat
  coreCount : Nat
  /-- What `ErrorManager.error` was told. -/
  errors : List String

namespace CoreManager

def empty : CoreManager ρ := ⟨[], [], fun _ => none, 0, []⟩

def error (message : String) (m : CoreManager ρ) : CoreManager ρ := { m with errors := m.errors ++ [message] }

def registerNewCoreElement (signature : String) (m : CoreManager ρ) : Option Nat × CoreManager ρ :=
  if signature = "" then (none, m)
  else
    match m.signatureToCoreId signature with
    | some _ => (none, m)
    | none =>
      (some m.coreCount, { m with
        coreCount := m.coreCount + 1
        implementations := m.implementations ++ [[]]
        signatures := m.signatures ++ [[signature]]
        signatureToCoreId := Function.update m.signatureToCoreId signature (some m.coreCount) })

def isRegistered (coreId : Int) (m : CoreManager ρ) : Bool := 0 ≤ coreId ∧ coreId < m.coreCount

def registerNewImplementations (coreId : Int) (impls : List (Implementation ρ)) (signs : List String) (m : CoreManager ρ) :
    CoreManager ρ :=
  if !m.isRegistered coreId then m.error ("Unregistered CoreElement. Skipping addition of " ++ toString coreId)
  else if impls.length ≠ signs.length then
    m.error "Attempting to register a different number of implementations and signatures. Skipping addition"
  else if "" ∈ signs then m.error "Invalid signature. Skipping addition"
  else { m with
    implementations := m.implementations.modify coreId.toNat (· ++ impls)
    signatures := m.signatures.modify coreId.toNat (· ++ signs)
    signatureToCoreId := signs.foldl (fun f signature => Function.update f signature (some coreId.toNat)) m.signatureToCoreId }

def getCoreId (signature : String) (m : CoreManager ρ) : Option Nat × CoreManager ρ :=
  if signature = "" then (none, m.error "Invalid signature. Skipping addition")
  else
    match m.signatureToCoreId signature with
    | none => (none, m.error ("Unregistered CoreElement. Skipping addition of " ++ signature))
    | some methodId => (some methodId, m)

def getSignature (coreId implId : Int) (m : CoreManager ρ) : Option String :=
  if m.isRegistered coreId then
    let implSignaturePosition := implId + 1
    m.signatures[coreId.toNat]?.bind fun coreSignatures =>
      if implSignaturePosition < 0 ∨ implSignaturePosition ≥ coreSignatures.length then none
      else coreSignatures[implSignaturePosition.toNat]?
  else none

def getNumberCoreImplementations (coreId : Int) (m : CoreManager ρ) : Int × CoreManager ρ :=
  if m.isRegistered coreId then ((m.implementations[coreId.toNat]?.getD []).length, m)
  else (-1, m.error "Unregistered CoreElement. Skipping addition of ")

end CoreManager

/-! ## Requests -/

namespace MethodType

def name : MethodType → String
  | method => "METHOD"
  | mpi => "MPI"
  | ompss => "OMPSS"
  | openCL => "OPENCL"
  | binary => "BINARY"
  | decaf => "DECAF"

def numArgs : MethodType → Nat
  | mpi => 3
  | decaf => 5
  | _ => 2

/-- The arguments that must not be empty, with what is said when they are. -/
def required : MethodType → List (Nat × String)
  | method => [(0, "Empty declaringClass annotation for method "), (1, "Empty methodName annotation for method ")]
  | mpi => [(2, "Empty mpiRunner annotation for MPI method "), (0, "Empty binary annotation for MPI method ")]
  | decaf => [(4, "Empty mpiRunner annotation for DECAF method "), (0, "Empty dfScript annotation for DECAF method ")]
  | binary => [(0, "Empty binary annotation for BINARY method ")]
  | ompss => [(0, "Empty binary annotation for OmpSs method ")]
  | openCL => [(0, "Empty kernel annotation for OpenCL method ")]

end MethodType

structure CERegistration (ρ : Type) where
  coreElementSignature : String
  implSignature : String
  implConstraints : ρ
  implType : MethodType
  implTypeArgs : List String

namespace CERegistration

variable (loadFromEnvironment : String → Option String)

/-- The arguments of the implementation; missing when there are too few or one cannot
be loaded, which raises. -/
def args (r : CERegistration ρ) : Option (List String) :=
  if r.implTypeArgs.length < r.implType.numArgs then none
  else (r.implTypeArgs.take r.implType.numArgs).mapM loadFromEnvironment

/-- The core element of the request, registered if it was not; none is a null. -/
def core (r : CERegistration ρ) (m : CoreManager ρ) : Option Nat × CoreManager ρ :=
  match m.registerNewCoreElement r.coreElementSignature with
  | (some coreId, m) => (some coreId, m)
  | (none, m) => m.getCoreId r.coreElementSignature

def implementation (r : CERegistration ρ) (coreId : Nat) (implId : Int) (args : List String) : Implementation ρ :=
  ⟨coreId, implId, r.implType, args, r.implConstraints⟩

def process (r : CERegistration ρ) (m : CoreManager ρ) : CoreManager ρ :=
  match r.core m with
  | (none, m) => m
  | (some coreId, m) =>
    let implId := m.getNumberCoreImplementations coreId
    let m := implId.2
    let m := if r.implTypeArgs.length ≠ r.implType.numArgs then
        m.error ("Incorrect parameters for type " ++ r.implType.name ++ " on " ++ r.coreElementSignature)
      else m
    match r.args loadFromEnvironment with
    | none => m
    | some args =>
      let empty := r.implType.required.filter fun a => args[a.1]? = some ""
      let m := empty.foldl (fun m a => m.error (a.2 ++ r.coreElementSignature)) m
      m.registerNewImplementations coreId [r.implementation coreId implId.1 args] [r.implSignature]

end CERegistration

/-! ## What has been registered -/

/-- A core element, with its implementations and the signature each was registered with. -/
structure CoreElement (ρ : Type) where
  signature : String
  implementations : List (Implementation ρ × String)

/-- A manager, and what has been registered. -/
@[ext] structure Registry (ρ : Type) where
  manager : CoreManager ρ
  registered : List (CoreElement ρ)

namespace Registry

def init : Registry ρ := ⟨.empty, []⟩

/-- Whether `registerNewImplementations` takes them. -/
def accepts (coreId : Int) (impls : List (Implementation ρ)) (signs : List String) (w : Registry ρ) : Bool :=
  w.manager.isRegistered coreId ∧ impls.length = signs.length ∧ "" ∉ signs

def registerNewCoreElement (signature : String) (w : Registry ρ) : Registry ρ where
  manager := (w.manager.registerNewCoreElement signature).2
  registered := if (w.manager.registerNewCoreElement signature).1.isSome then w.registered ++ [⟨signature, []⟩]
    else w.registered

def registerNewImplementations (coreId : Int) (impls : List (Implementation ρ)) (signs : List String) (w : Registry ρ) :
    Registry ρ where
  manager := w.manager.registerNewImplementations coreId impls signs
  registered :=
    if w.accepts coreId impls signs then
      w.registered.modify coreId.toNat fun e => { e with implementations := e.implementations ++ impls.zip signs }
    else w.registered

/-- What the registry is to be: the tables have what has been registered, each core
element is found under its signature, and its implementations have its number and
are numbered from 0. -/
structure Consistent (w : Registry ρ) : Prop where
  coreCount : w.manager.coreCount = w.registered.length
  implementations : w.manager.implementations = w.registered.map fun e => e.implementations.map Prod.fst
  signatures : w.manager.signatures = w.registered.map fun e => e.signature :: e.implementations.map Prod.snd
  getCoreId : ∀ (c : Nat) e, w.registered[c]? = some e → (w.manager.getCoreId e.signature).1 = some c
  numbered : ∀ (c : Nat) e, w.registered[c]? = some e → ∀ (i : Nat) p, e.implementations[i]? = some p → p.1.coreId = c ∧ p.1.implId = i
  getSignature : ∀ (c : Nat) e, w.registered[c]? = some e → ∀ (i : Nat) p, e.implementations[i]? = some p →
    w.manager.getSignature c i = some p.2
  registered : ∀ signature c, w.manager.signatureToCoreId signature = some c → c < w.manager.coreCount

/-- The implementations of a core are numbered on from those it has. -/
def NumbersOn (coreId : Int) (impls : List (Implementation ρ)) (w : Registry ρ) : Prop :=
  ∀ (i : Nat) impl, impls[i]? = some impl →
    impl.coreId = coreId ∧ impl.implId = (w.manager.getNumberCoreImplementations coreId).1 + i

/-- None is the signature of another core element. -/
def Unclaimed (coreId : Int) (signs : List String) (w : Registry ρ) : Prop :=
  ∀ (c : Nat) e, w.registered[c]? = some e → (c : Int) ≠ coreId → e.signature ∉ signs

section
variable {w : Registry ρ}

theorem getSignature_of_signatures {m : CoreManager ρ} {registered : List (CoreElement ρ)}
    (hcount : m.coreCount = registered.length)
    (hsignatures : m.signatures = registered.map fun e => e.signature :: e.implementations.map Prod.snd)
    {c i : Nat} {e : CoreElement ρ} {p : Implementation ρ × String} (he : registered[c]? = some e)
    (hp : e.implementations[i]? = some p) : m.getSignature c i = some p.2 := by
  have hc : c < registered.length := (List.getElem?_eq_some_iff.mp he).1
  have hi : i < e.implementations.length := (List.getElem?_eq_some_iff.mp hp).1
  have hregistered : m.isRegistered c = true := by simp [CoreManager.isRegistered, hcount, hc]
  have hsigns : m.signatures[(c : Int).toNat]? = some (e.signature :: e.implementations.map Prod.snd) := by
    rw [hsignatures, Int.toNat_natCast, List.getElem?_map, he]
    rfl
  have hbounds : ¬ ((i : Int) + 1 < 0 ∨ (i : Int) + 1 ≥ (e.signature :: e.implementations.map Prod.snd).length) := by
    simp only [List.length_cons, List.length_map]
    omega
  have hposition : ((i : Int) + 1).toNat = i + 1 := by omega
  rw [CoreManager.getSignature, if_pos hregistered, hsigns, Option.bind_some, if_neg hbounds, hposition, List.getElem?_cons_succ, List.getElem?_map, hp]
  rfl

theorem getCoreId_fst (signature : String) (m : CoreManager ρ) :
    (m.getCoreId signature).1 = if signature = "" then none else m.signatureToCoreId signature := by
  unfold CoreManager.getCoreId
  split
  next => rfl
  next => cases m.signatureToCoreId signature <;> rfl

/-- With more messages of errors. -/
def withErrors (messages : List String) (w : Registry ρ) : Registry ρ :=
  { w with manager := { w.manager with errors := w.manager.errors ++ messages } }

theorem Consistent.withErrors (h : Consistent w) (messages : List String) : Consistent (w.withErrors messages) where
  coreCount := h.coreCount
  implementations := h.implementations
  signatures := h.signatures
  getCoreId c e he := by
    have hget := h.getCoreId c e he
    rw [getCoreId_fst] at hget ⊢
    exact hget
  numbered := h.numbered
  getSignature := h.getSignature
  registered := h.registered

theorem Consistent.init : Consistent (init : Registry ρ) where
  coreCount := rfl
  implementations := rfl
  signatures := rfl
  getCoreId c e he := by simp [Registry.init] at he
  numbered c e he := by simp [Registry.init] at he
  getSignature c e he := by simp [Registry.init] at he
  registered signature c hc := by simp [Registry.init, CoreManager.empty] at hc

/-- A new core element has no signature that was taken. -/
theorem Consistent.registerNewCoreElement (signature : String) (h : Consistent w) :
    Consistent (w.registerNewCoreElement signature) := by
  unfold Registry.registerNewCoreElement CoreManager.registerNewCoreElement
  by_cases hempty : signature = ""
  · simpa [hempty] using h
  cases hfound : w.manager.signatureToCoreId signature with
  | some d => simpa [hempty, hfound] using h
  | none =>
    simp only [hempty, if_false, Option.isSome_some, if_true]
    have hlast : ∀ {c : Nat} {e : CoreElement ρ}, (w.registered ++ [⟨signature, []⟩])[c]? = some e →
        w.registered[c]? = some e ∨ c = w.registered.length ∧ e = ⟨signature, []⟩ := by
      intro c e he
      rw [List.getElem?_append] at he
      split at he
      next => exact .inl he
      next hlt =>
        rw [List.getElem?_singleton] at he
        split at he
        next hzero => exact .inr ⟨by omega, (Option.some.inj he).symm⟩
        next => cases he
    have hcount : w.manager.coreCount + 1 = (w.registered ++ [(⟨signature, []⟩ : CoreElement ρ)]).length := by
      simp [h.coreCount]
    have hsignatures : w.manager.signatures ++ [[signature]] =
        (w.registered ++ [(⟨signature, []⟩ : CoreElement ρ)]).map fun e => e.signature :: e.implementations.map Prod.snd := by
      simp [h.signatures]
    refine ⟨hcount, by simp [h.implementations], hsignatures, fun c e he => ?_, fun c e he i p hp => ?_,
      fun c e he i p hp => getSignature_of_signatures hcount hsignatures he hp, fun sign c hc => ?_⟩
    · rw [getCoreId_fst]
      dsimp only
      rcases hlast he with he | ⟨rfl, rfl⟩
      · have hget := h.getCoreId c e he
        rw [getCoreId_fst] at hget
        have hne : e.signature ≠ signature := by
          intro heq
          rw [heq, if_neg hempty, hfound] at hget
          cases hget
        rwa [Function.update_of_ne hne]
      · rw [if_neg hempty, Function.update_self, h.coreCount]
    · rcases hlast he with he | ⟨rfl, rfl⟩
      · exact h.numbered c e he i p hp
      · simp at hp
    · simp only [Function.update_apply] at hc
      split at hc
      next =>
        cases hc
        exact Nat.lt_succ_self _
      next => exact Nat.lt_succ_of_lt (h.registered sign c hc)

theorem foldl_update (signs : List String) (coreId : Nat) (f : String → Option Nat) (sign : String) :
    signs.foldl (fun f signature => Function.update f signature (some coreId)) f sign =
      if sign ∈ signs then some coreId else f sign := by
  induction signs generalizing f with
  | nil => rfl
  | cons s signs ih =>
    rw [List.foldl_cons, ih]
    by_cases hs : sign = s
    · simp [hs]
    · simp [hs, Function.update_of_ne hs]

theorem registerNewImplementations_of_not_accepts {coreId : Int} {impls : List (Implementation ρ)} {signs : List String}
    (haccepts : w.accepts coreId impls signs = false) : ∃ message,
      w.registerNewImplementations coreId impls signs = w.withErrors [message] := by
  rw [Registry.registerNewImplementations, haccepts, CoreManager.registerNewImplementations]
  split
  next => exact ⟨_, rfl⟩
  next hregistered =>
    split
    next => exact ⟨_, rfl⟩
    next hlength =>
      split
      next => exact ⟨_, rfl⟩
      next hempty => simp_all [accepts]

theorem registerNewImplementations_of_accepts {c : Nat} {impls : List (Implementation ρ)} {signs : List String}
    (haccepts : w.accepts c impls signs = true) : w.registerNewImplementations c impls signs =
      { manager := { w.manager with
          implementations := w.manager.implementations.modify c (· ++ impls)
          signatures := w.manager.signatures.modify c (· ++ signs)
          signatureToCoreId := signs.foldl (fun f signature => Function.update f signature (some c))
            w.manager.signatureToCoreId }
        registered := w.registered.modify c fun e => { e with implementations := e.implementations ++ impls.zip signs } } := by
  have h := haccepts
  simp only [accepts, decide_eq_true_eq] at h
  simp [Registry.registerNewImplementations, CoreManager.registerNewImplementations, haccepts, h.1, h.2.1, h.2.2]

theorem map_modify_comm {α β : Type} {l : List α} {g : α → β} {f : α → α} {f' : β → β} {c : Nat} (h : ∀ a, f' (g a) = g (f a)) :
    (l.map g).modify c f' = (l.modify c f).map g := by
  refine List.ext_getElem? fun d => ?_
  rw [List.getElem?_modify, List.getElem?_map, List.getElem?_map, List.getElem?_modify]
  cases l[d]? with
  | none => rfl
  | some a =>
    by_cases hd : c = d
    · simp [hd, h]
    · simp [hd]

/-- An entry of the registry after implementations have been added to core `c`. -/
theorem getElem?_modify_cases {registered : List (CoreElement ρ)} {f : CoreElement ρ → CoreElement ρ} {c d : Nat}
    {e : CoreElement ρ} (he : (registered.modify c f)[d]? = some e) :
    (d ≠ c ∧ registered[d]? = some e) ∨ (d = c ∧ ∃ e', registered[c]? = some e' ∧ e = f e') := by
  rw [List.getElem?_modify] at he
  obtain ⟨e', he', rfl⟩ := Option.map_eq_some_iff.mp he
  by_cases hd : c = d
  · subst hd
    exact .inr ⟨rfl, e', he', if_pos rfl⟩
  · exact .inl ⟨Ne.symm hd, by rw [he', if_neg hd]⟩

theorem Consistent.getNumberCoreImplementations (h : Consistent w) {c : Nat} {e : CoreElement ρ} (he : w.registered[c]? = some e) :
    w.manager.getNumberCoreImplementations c = ((e.implementations.length : Int), w.manager) := by
  have hc : c < w.registered.length := (List.getElem?_eq_some_iff.mp he).1
  have hregistered : w.manager.isRegistered c = true := by simp [CoreManager.isRegistered, h.coreCount, hc]
  have himpls : w.manager.implementations[c]? = some (e.implementations.map Prod.fst) := by
    rw [h.implementations, List.getElem?_map, he]
    rfl
  simp [CoreManager.getNumberCoreImplementations, hregistered, himpls]

section
variable {c : Nat} {impls : List (Implementation ρ)} {signs : List String}

/-- What a registry that is as it is to be after the implementations have been added
says about them. -/
theorem Consistent.numbersOn (h : Consistent w) (haccepts : w.accepts c impls signs = true)
    (hafter : Consistent (w.registerNewImplementations c impls signs)) : NumbersOn c impls w ∧ Unclaimed c signs w := by
  have hreg := haccepts
  simp only [accepts, CoreManager.isRegistered, decide_eq_true_eq, h.coreCount] at hreg
  obtain ⟨⟨-, hc⟩, hlength, -⟩ := hreg
  have he := List.getElem?_eq_getElem (Int.ofNat_lt.mp hc)
  rw [registerNewImplementations_of_accepts haccepts] at hafter
  refine ⟨fun i impl himpl => ?_, fun d e' he' hd hmem => ?_⟩
  · have hi : i < impls.length := (List.getElem?_eq_some_iff.mp himpl).1
    have hzip : (impls.zip signs)[i]? = some (impl, signs[i]) :=
      List.getElem?_zip_eq_some.mpr ⟨himpl, List.getElem?_eq_getElem _⟩
    have hentry : (w.registered[c].implementations ++ impls.zip signs)[w.registered[c].implementations.length + i]? =
        some (impl, signs[i]) := by
      rw [List.getElem?_append_right (Nat.le_add_right _ _), Nat.add_sub_cancel_left, hzip]
    have hnumbered := hafter.numbered c { w.registered[c] with implementations := w.registered[c].implementations ++ impls.zip signs }
      (by rw [List.getElem?_modify_eq, he]; rfl) _ _ hentry
    rw [h.getNumberCoreImplementations he]
    exact ⟨hnumbered.1, by simpa using hnumbered.2⟩
  · have hne : d ≠ c := fun hdc => hd (by rw [hdc])
    have hget := hafter.getCoreId d e' (by rw [List.getElem?_modify_ne _ _ (Ne.symm hne), he'])
    rw [getCoreId_fst] at hget
    dsimp only at hget
    rw [foldl_update, if_pos hmem] at hget
    split at hget
    next => cases hget
    next => exact hne (Option.some.inj hget).symm

theorem Consistent.registerNewImplementations (h : Consistent w) (haccepts : w.accepts c impls signs = true)
    (hnumbers : NumbersOn c impls w) (hunclaimed : Unclaimed c signs w) :
    Consistent (w.registerNewImplementations c impls signs) := by
  have hreg := haccepts
  simp only [accepts, CoreManager.isRegistered, decide_eq_true_eq, h.coreCount] at hreg
  obtain ⟨⟨-, hc⟩, hlength, -⟩ := hreg
  have he := List.getElem?_eq_getElem (Int.ofNat_lt.mp hc)
  rw [registerNewImplementations_of_accepts haccepts]
  have hcount : w.manager.coreCount = (w.registered.modify c fun e =>
      { e with implementations := e.implementations ++ impls.zip signs }).length := by
    rw [List.length_modify, h.coreCount]
  have hsignatures : w.manager.signatures.modify c (· ++ signs) = (w.registered.modify c fun e =>
      { e with implementations := e.implementations ++ impls.zip signs }).map
        fun e => e.signature :: e.implementations.map Prod.snd := by
    rw [h.signatures]
    refine map_modify_comm fun e => ?_
    simp [List.map_snd_zip (Nat.le_of_eq hlength.symm)]
  refine ⟨hcount, ?_, hsignatures, fun d e' he' => ?_, fun d e' he' i p hp => ?_, fun d e' he' i p hp => ?_,
    fun sign d hd => ?_⟩
  · rw [h.implementations]
    refine map_modify_comm fun e => ?_
    simp [List.map_fst_zip (Nat.le_of_eq hlength)]
  · rw [getCoreId_fst]
    dsimp only
    rw [foldl_update]
    rcases getElem?_modify_cases he' with ⟨hd, he'⟩ | ⟨rfl, e, he, rfl⟩
    · rw [if_neg (hunclaimed d e' he' fun hdc => hd (Int.ofNat_inj.mp hdc))]
      rw [← getCoreId_fst]
      exact h.getCoreId d e' he'
    · have hget := h.getCoreId d e he
      rw [getCoreId_fst] at hget
      dsimp only
      split at hget
      next => cases hget
      next hne => rw [if_neg hne, hget, ite_self]
  · rcases getElem?_modify_cases he' with ⟨hd, he'⟩ | ⟨rfl, e, he, rfl⟩
    · exact h.numbered d e' he' i p hp
    · dsimp only at hp
      rw [List.getElem?_append] at hp
      split at hp
      next => exact h.numbered d e he i p hp
      next hlt =>
        obtain ⟨himpl, -⟩ := List.getElem?_zip_eq_some.mp hp
        have hnumber := hnumbers _ _ himpl
        rw [h.getNumberCoreImplementations he] at hnumber
        refine ⟨hnumber.1, ?_⟩
        rw [hnumber.2]
        dsimp only
        omega
  · refine getSignature_of_signatures ?_ ?_ he' hp
    · exact hcount
    · exact hsignatures
  · dsimp only at hd
    rw [foldl_update] at hd
    split at hd
    next =>
      cases hd
      rw [h.coreCount]
      exact Int.ofNat_lt.mp hc
    next => exact h.registered sign d hd

end

/-- With the implementations numbered on, and no signature of another core element
among theirs, the registry stays as it is to be; and only then. -/
theorem Consistent.registerNewImplementations_iff (h : Consistent w) (coreId : Int) (impls : List (Implementation ρ))
    (signs : List String) : Consistent (w.registerNewImplementations coreId impls signs) ↔
      (w.accepts coreId impls signs = true → NumbersOn coreId impls w ∧ Unclaimed coreId signs w) := by
  by_cases haccepts : w.accepts coreId impls signs = true
  · obtain ⟨c, rfl⟩ : ∃ c : Nat, coreId = c := by
      have hreg := haccepts
      simp only [accepts, CoreManager.isRegistered, decide_eq_true_eq] at hreg
      exact Int.eq_ofNat_of_zero_le hreg.1.1
    exact ⟨fun hafter _ => h.numbersOn haccepts hafter,
      fun hboth => h.registerNewImplementations haccepts (hboth haccepts).1 (hboth haccepts).2⟩
  · obtain ⟨message, hsame⟩ := registerNewImplementations_of_not_accepts (by simpa using haccepts)
    rw [hsame]
    exact ⟨fun _ hacc => absurd hacc haccepts, fun _ => h.withErrors [message]⟩

end

/-! ## Requests and runs -/

/-- What a request registers. -/
def process (loadFromEnvironment : String → Option String) (r : CERegistration ρ) (w : Registry ρ) : Registry ρ where
  manager := r.process loadFromEnvironment w.manager
  registered :=
    let w' := w.registerNewCoreElement r.coreElementSignature
    match (r.core w.manager).1, r.args loadFromEnvironment with
    | some c, some args =>
      (w'.registerNewImplementations c
        [r.implementation c (w'.manager.getNumberCoreImplementations c).1 args] [r.implSignature]).registered
    | _, _ => w'.registered

inductive Op (ρ : Type)
  | registerNewCoreElement (signature : String)
  | registerNewImplementations (coreId : Int) (impls : List (Implementation ρ)) (signs : List String)
  | request (r : CERegistration ρ)

def step (loadFromEnvironment : String → Option String) (w : Registry ρ) : Op ρ → Option (Registry ρ)
  | .registerNewCoreElement signature => some (w.registerNewCoreElement signature)
  | .registerNewImplementations coreId impls signs => some (w.registerNewImplementations coreId impls signs)
  | .request r => some (w.process loadFromEnvironment r)

/-- A request for a core element that there is adds its implementation. -/
def Adds (loadFromEnvironment : String → Option String) (w : Registry ρ) : Op ρ → Prop
  | .request r => ∀ (c : Nat) e, w.registered[c]? = some e → e.signature = r.coreElementSignature →
      ∃ args, r.args loadFromEnvironment = some args ∧
        (r.process loadFromEnvironment w.manager).implementations[c]? =
          some (e.implementations.map Prod.fst ++ [r.implementation c e.implementations.length args])
  | _ => True

/-- The implementations of a call are numbered on from those of the core, and none of
them is registered with the signature of another core element; a request for a core
element that there is has a signature and the arguments of its implementation. -/
def Careful (loadFromEnvironment : String → Option String) (w : Registry ρ) : Op ρ → Prop
  | .registerNewCoreElement _ => True
  | .registerNewImplementations coreId impls signs =>
    w.accepts coreId impls signs = true → NumbersOn coreId impls w ∧ Unclaimed coreId signs w
  | .request r =>
    (∀ e ∈ w.registered, e.signature = r.coreElementSignature →
      (r.args loadFromEnvironment).isSome ∧ r.implSignature ≠ "") ∧
    (∀ c ∈ (r.core w.manager).1, (r.args loadFromEnvironment).isSome → r.implSignature ≠ "" →
      Unclaimed c [r.implSignature] w)

section
variable {loadFromEnvironment : String → Option String} {w : Registry ρ} {r : CERegistration ρ}

/-- The core of a request: none without a signature; the one found under it; or a new one. -/
theorem core_cases (h : Consistent w) (r : CERegistration ρ) :
    ((∃ message, r.core w.manager = (none, w.manager.error message)) ∧
        w.registerNewCoreElement r.coreElementSignature = w ∧ ∀ e ∈ w.registered, e.signature ≠ r.coreElementSignature) ∨
    (∃ c < w.registered.length, r.core w.manager = (some c, w.manager) ∧
        w.registerNewCoreElement r.coreElementSignature = w ∧
        ∀ d e, w.registered[d]? = some e → e.signature = r.coreElementSignature → d = c) ∨
    (r.core w.manager = (some w.registered.length, (w.registerNewCoreElement r.coreElementSignature).manager) ∧
        (w.registerNewCoreElement r.coreElementSignature).registered = w.registered ++ [⟨r.coreElementSignature, []⟩] ∧
        ∀ e ∈ w.registered, e.signature ≠ r.coreElementSignature) := by
  have hget : ∀ {d : Nat} {e : CoreElement ρ}, w.registered[d]? = some e →
      e.signature ≠ "" ∧ w.manager.signatureToCoreId e.signature = some d := by
    intro d e he
    have hd := h.getCoreId d e he
    rw [getCoreId_fst] at hd
    split at hd
    next => cases hd
    next hne => exact ⟨hne, hd⟩
  have hmem : ∀ {e : CoreElement ρ}, e ∈ w.registered → ∃ d : Nat, w.registered[d]? = some e := fun he =>
    List.getElem?_of_mem he
  unfold CERegistration.core registerNewCoreElement CoreManager.registerNewCoreElement CoreManager.getCoreId
  by_cases hempty : r.coreElementSignature = ""
  · refine .inl ⟨⟨_, by simp only [hempty, if_true]; rfl⟩, by simp [hempty], fun e he heq => ?_⟩
    obtain ⟨d, hd⟩ := hmem he
    exact (hget hd).1 (heq.trans hempty)
  cases hfound : w.manager.signatureToCoreId r.coreElementSignature with
  | some c =>
    refine .inr (.inl ⟨c, h.coreCount ▸ h.registered _ _ hfound, by simp [hempty, hfound], by simp [hempty],
      fun d e hd heq => ?_⟩)
    have hsame := (hget hd).2
    rw [heq, hfound] at hsame
    exact (Option.some.inj hsame).symm
  | none =>
    refine .inr (.inr ⟨by simp [hempty, h.coreCount], by simp [hempty], fun e he heq => ?_⟩)
    obtain ⟨d, hd⟩ := hmem he
    have hsame := (hget hd).2
    rw [heq, hfound] at hsame
    cases hsame

theorem foldl_error {α : Type} (message : α → String) (l : List α) (m : CoreManager ρ) :
    l.foldl (fun m a => m.error (message a)) m = { m with errors := m.errors ++ l.map message } := by
  induction l generalizing m with
  | nil => simp
  | cons a l ih =>
    rw [List.foldl_cons, ih]
    simp [CoreManager.error]

/-- What a request leaves: the core element registered, and its implementation if its
arguments can be read. -/
theorem process_spec {c : Nat} {e : CoreElement ρ} {w' : Registry ρ}
    (hw' : w' = w.registerNewCoreElement r.coreElementSignature) (h' : Consistent w')
    (hcore : r.core w.manager = (some c, w'.manager)) (he : w'.registered[c]? = some e) : ∃ messages,
      w.process loadFromEnvironment r =
        match r.args loadFromEnvironment with
        | none => w'.withErrors messages
        | some args => (w'.withErrors messages).registerNewImplementations c
            [r.implementation c e.implementations.length args] [r.implSignature] := by
  have hnumber := h'.getNumberCoreImplementations he
  have hregistered : (w.process loadFromEnvironment r).registered =
      match r.args loadFromEnvironment with
      | none => w'.registered
      | some args => (w'.registerNewImplementations c
          [r.implementation c e.implementations.length args] [r.implSignature]).registered := by
    unfold process
    simp only [← hw', hcore]
    cases r.args loadFromEnvironment with
    | none => rfl
    | some args => simp only [hnumber]
  have hmanager : (w.process loadFromEnvironment r).manager = r.process loadFromEnvironment w.manager := rfl
  obtain ⟨messages, hmessages⟩ : ∃ messages, (if r.implTypeArgs.length ≠ r.implType.numArgs then
        w'.manager.error ("Incorrect parameters for type " ++ r.implType.name ++ " on " ++ r.coreElementSignature)
      else w'.manager) = (w'.withErrors messages).manager := by
    split
    next => exact ⟨[_], rfl⟩
    next => exact ⟨[], by simp [withErrors]⟩
  unfold CERegistration.process at hmanager
  simp only [hcore, hnumber, hmessages] at hmanager
  cases hargs : r.args loadFromEnvironment with
  | none =>
    rw [hargs] at hregistered hmanager
    exact ⟨messages, Registry.ext hmanager hregistered⟩
  | some args =>
    rw [hargs] at hregistered hmanager
    dsimp only at hregistered hmanager
    rw [foldl_error] at hmanager
    refine ⟨messages ++ (r.implType.required.filter fun a => args[a.1]? = some "").map
      fun a => a.2 ++ r.coreElementSignature, Registry.ext (hmanager.trans ?_) hregistered⟩
    dsimp only [registerNewImplementations, withErrors]
    rw [List.append_assoc]

/-- One implementation is taken with a signature. -/
theorem accepts_singleton (h : Consistent w) {c : Nat} (hc : c < w.registered.length) (impl : Implementation ρ) (sign : String) :
    accepts c [impl] [sign] w = true ↔ sign ≠ "" := by
  have hregistered : w.manager.isRegistered c = true := by simp [CoreManager.isRegistered, h.coreCount, hc]
  rw [accepts, decide_eq_true_eq, List.mem_singleton]
  constructor
  · rintro ⟨-, -, hne⟩ heq
    exact hne heq.symm
  · exact fun hne => ⟨hregistered, rfl, fun heq => hne heq.symm⟩

theorem numbersOn_singleton (h : Consistent w) {c : Nat} {e : CoreElement ρ} (he : w.registered[c]? = some e) (args : List String) :
    NumbersOn c [r.implementation c e.implementations.length args] w := by
  intro i impl himpl
  rw [h.getNumberCoreImplementations he]
  obtain ⟨hi, rfl⟩ := List.getElem?_eq_some_iff.mp himpl
  obtain rfl : i = 0 := by simpa using hi
  simp [CERegistration.implementation]

/-- What a request needs to register its implementation with the core it found or made. -/
theorem request_iff {c : Nat} {e : CoreElement ρ} {w' : Registry ρ} (hw' : w' = w.registerNewCoreElement r.coreElementSignature)
    (h' : Consistent w') (hcore : r.core w.manager = (some c, w'.manager)) (he : w'.registered[c]? = some e)
    (hunclaimed : Unclaimed c [r.implSignature] w' ↔ Unclaimed c [r.implSignature] w) :
    Consistent (w.process loadFromEnvironment r) ↔
      ((r.args loadFromEnvironment).isSome → r.implSignature ≠ "" → Unclaimed c [r.implSignature] w) := by
  obtain ⟨messages, hprocess⟩ := @process_spec ρ loadFromEnvironment w r c e w' hw' h' hcore he
  have herrors := h'.withErrors messages
  have hc : c < w'.registered.length := (List.getElem?_eq_some_iff.mp he).1
  rw [hprocess]
  cases r.args loadFromEnvironment with
  | none => simp [herrors]
  | some args =>
    dsimp only
    rw [herrors.registerNewImplementations_iff, accepts_singleton herrors hc]
    simp only [numbersOn_singleton herrors he, true_and, Option.isSome_some, forall_const]
    exact forall_congr' fun _ => hunclaimed

/-- What a request needs to add its implementation to a core element that there is. -/
theorem adds_iff (h : Consistent w) {c : Nat} {e : CoreElement ρ} (hw : w.registerNewCoreElement r.coreElementSignature = w)
    (hcore : r.core w.manager = (some c, w.manager)) (he : w.registered[c]? = some e)
    (honly : ∀ d e, w.registered[d]? = some e → e.signature = r.coreElementSignature → d = c) :
    Adds loadFromEnvironment w (.request r) ↔
      ∀ e ∈ w.registered, e.signature = r.coreElementSignature → (r.args loadFromEnvironment).isSome ∧ r.implSignature ≠ "" := by
  obtain ⟨messages, hprocess⟩ := @process_spec ρ loadFromEnvironment w r c e w hw.symm h hcore he
  have herrors := h.withErrors messages
  have hc : c < w.registered.length := (List.getElem?_eq_some_iff.mp he).1
  have himpls : w.manager.implementations[c]? = some (e.implementations.map Prod.fst) := by
    rw [h.implementations, List.getElem?_map, he]
    rfl
  have hmanager : r.process loadFromEnvironment w.manager = (w.process loadFromEnvironment r).manager := rfl
  constructor
  · intro hadds e' he' hsignature
    obtain ⟨d, hd⟩ := List.getElem?_of_mem he'
    obtain rfl := honly d e' hd hsignature
    obtain rfl : e' = e := Option.some.inj (hd.symm.trans he)
    obtain ⟨args, hargs, hadded⟩ := hadds d e' hd hsignature
    refine ⟨by rw [hargs]; rfl, fun hempty => ?_⟩
    have hnot := (accepts_singleton herrors hc (r.implementation d e'.implementations.length args) r.implSignature).not.mpr
      (not_not.mpr hempty)
    obtain ⟨message, hsame⟩ := registerNewImplementations_of_not_accepts (by simpa using hnot)
    rw [hargs] at hprocess
    dsimp only at hprocess
    rw [hmanager, hprocess, hsame] at hadded
    have hlength := congrArg (Option.map List.length) (himpls.symm.trans hadded)
    simp at hlength
  · intro hneeds d e' hd hsignature
    obtain rfl := honly d e' hd hsignature
    obtain rfl : e' = e := Option.some.inj (hd.symm.trans he)
    obtain ⟨hsome, hne⟩ := hneeds e' (List.mem_of_getElem? hd) hsignature
    obtain ⟨args, hargs⟩ := Option.isSome_iff_exists.mp hsome
    have haccepts := (accepts_singleton herrors hc (r.implementation d e'.implementations.length args) r.implSignature).mpr hne
    refine ⟨args, hargs, ?_⟩
    rw [hargs] at hprocess
    dsimp only at hprocess
    rw [hmanager, hprocess, registerNewImplementations_of_accepts haccepts]
    dsimp only [withErrors]
    rw [List.getElem?_modify_eq, himpls]
    rfl

theorem careful_iff {t : Registry ρ} {op : Op ρ} (h : Consistent w) (hstep : step loadFromEnvironment w op = some t) :
    Careful loadFromEnvironment w op ↔ Consistent t ∧ Adds loadFromEnvironment w op := by
  cases op with
  | registerNewCoreElement signature =>
    cases hstep
    simp [Careful, Adds, h.registerNewCoreElement signature]
  | registerNewImplementations coreId impls signs =>
    cases hstep
    simp only [Careful, Adds, and_true]
    exact (h.registerNewImplementations_iff coreId impls signs).symm
  | request r =>
    cases hstep
    have h' := h.registerNewCoreElement r.coreElementSignature
    rcases core_cases h r with ⟨⟨message, hcore⟩, hsame, hnone⟩ | ⟨c, hc, hcore, hsame, honly⟩ | ⟨hcore, hadded, hnone⟩
    · -- no core: the request raises
      have hprocess : w.process loadFromEnvironment r = w.withErrors [message] := by
        simp only [process, CERegistration.process, hcore, hsame, withErrors, CoreManager.error]
      rw [hprocess]
      refine iff_of_true ⟨fun e he heq => absurd heq (hnone e he), ?_⟩
        ⟨h.withErrors [message], fun d e hd heq => absurd heq (hnone e (List.mem_of_getElem? hd))⟩
      rw [hcore]
      rintro c ⟨⟩
    · have he := List.getElem?_eq_getElem hc
      rw [request_iff hsame.symm h hcore he Iff.rfl, adds_iff h hsame hcore he honly, Careful, hcore, and_comm]
      simp
    · -- a new core element, whose signature no other has
      have he : (w.registerNewCoreElement r.coreElementSignature).registered[w.registered.length]? =
          some ⟨r.coreElementSignature, []⟩ := by rw [hadded]; simp
      have hunclaimed : Unclaimed w.registered.length [r.implSignature] (w.registerNewCoreElement r.coreElementSignature) ↔
          Unclaimed w.registered.length [r.implSignature] w := by
        unfold Unclaimed
        rw [hadded]
        refine forall_congr' fun d => forall_congr' fun e => ?_
        by_cases hd : d < w.registered.length
        · rw [List.getElem?_append_left hd]
        · refine iff_of_true (fun he hne => ?_) (fun he => absurd (List.getElem?_eq_some_iff.mp he).1 hd)
          have hlength := (List.getElem?_eq_some_iff.mp he).1
          rw [List.length_append, List.length_singleton] at hlength
          exact absurd (by omega : (d : Int) = w.registered.length) hne
      have hadds : Adds loadFromEnvironment w (.request r) := fun d e hd heq =>
        absurd heq (hnone e (List.mem_of_getElem? hd))
      have hneeds : ∀ e ∈ w.registered, e.signature = r.coreElementSignature →
          (r.args loadFromEnvironment).isSome ∧ r.implSignature ≠ "" := fun e he heq => absurd heq (hnone e he)
      rw [request_iff rfl h' hcore he hunclaimed, Careful, hcore]
      simp only [Option.mem_def, Option.some.injEq, forall_eq']
      exact ⟨fun hboth => ⟨hboth.2, hadds⟩, fun hboth => ⟨hneeds, hboth.1⟩⟩

end

/-- In every run of registrations the registry is as it is to be in every state, and
every request for a core element that there is adds its implementation, exactly
when every registration is careful. -/
theorem consistent_iff_careful (loadFromEnvironment : String → Option String) (ops : List (Op ρ)) :
    Always (step loadFromEnvironment) Consistent init ops ∧
        Along (step loadFromEnvironment) (Adds loadFromEnvironment) init ops ↔
      Along (step loadFromEnvironment) (Careful loadFromEnvironment) init ops :=
  always_and_along_iff (fun _ _ _ => careful_iff) Consistent.init

/-- An implementation of "B" with the signature "A": the next one of the core element
"A" goes to "B". -/
theorem request_takes_signature :
    ¬ (Always (step some) Consistent init [.request ⟨"A", "A1", (), .method, ["C", "a"]⟩,
        .request ⟨"B", "A", (), .method, ["C", "b"]⟩, .request ⟨"A", "A2", (), .method, ["D", "a"]⟩] ∧
      Along (step some) (Adds some) init [.request ⟨"A", "A1", (), .method, ["C", "a"]⟩,
        .request ⟨"B", "A", (), .method, ["C", "b"]⟩, .request ⟨"A", "A2", (), .method, ["D", "a"]⟩]) := by
  rintro ⟨h, -⟩
  have hrun : (run (step some) (init : Registry Unit) [.request ⟨"A", "A1", (), .method, ["C", "a"]⟩,
      .request ⟨"B", "A", (), .method, ["C", "b"]⟩, .request ⟨"A", "A2", (), .method, ["D", "a"]⟩]).map (fun w =>
        (w.registered.map CoreElement.signature, (w.manager.getCoreId "A").1, w.manager.implementations.map List.length)) =
      some (["A", "B"], some 1, [1, 2]) := by decide
  obtain ⟨w, hw, hlast⟩ := Option.map_eq_some_iff.mp hrun
  simp only [Prod.mk.injEq] at hlast
  have hregistered : w.registered[0]?.map CoreElement.signature = some "A" := by
    rw [← List.getElem?_map, hlast.1]
    rfl
  obtain ⟨e, he, hsignature⟩ := Option.map_eq_some_iff.mp hregistered
  have hget := (Always.of_run h hw).getCoreId 0 e he
  rw [hsignature, hlast.2.1] at hget
  cases hget

end Registry

end Compss.Runtime
