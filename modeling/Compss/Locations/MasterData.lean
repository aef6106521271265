/-
What `COMPSsMaster.obtainData` tells its listener.

The method tries one source of the data after the other: the value in memory,
the copies in progress that bring it to the master, the files of the master,
the source asked for, all the hosts that have it. An `IOException` of a file
copy, and any exception of a node asked to send, lead on to the next; any
other exception leaves the method. What each attempt comes to is a parameter.
A node that takes the request has the listener told how the transfer ended;
one that throws has told nothing. A copy in progress that is waited for ends.
The lock against the removal of hosts is left out.
-/
import Compss.Locations.FailedCopies

namespace Compss.Locations

open Lib

inductive Notice
  | notifyEnd
  | notifyFailure
  deriving DecidableEq, Repr

/-- What copying a file, or serializing a value to one, comes to. -/
inductive FileOutcome
  | done
  | ioException
  | runtimeException
  deriving DecidableEq, Repr

/-- What `sendData` of another node comes to. -/
inductive SendOutcome
  | sent
  | failed
  | exception
  deriving DecidableEq, Repr

/-- What the attempts come to, each by its position among those of its kind. -/
structure Outcomes where
  serialize : FileOutcome
  fromCopy : Nat → FileOutcome
  fromMaster : Nat → FileOutcome
  fromSourceFile : Nat → FileOutcome
  fromSourceNode : Nat → SendOutcome
  fromHost : Nat → SendOutcome

/-- What the call leaves: what the listener has been told in the end, and whether
the data is at its target. -/
structure Obtained where
  state : CopyState
  notices : List Notice
  atTarget : Bool
  deriving DecidableEq, Repr

/-- The master, and what it asks of its surroundings. -/
structure Master where
  env : Paths
  disks : SharedDiskManager
  appHost : Resource
  /-- The order of `getAllHosts`, a `HashSet`. -/
  hostOrder : HashOrder Resource
  /-- `copy.getTargetData().getAllHosts()`; missing for a copy without target data. -/
  targetDataHosts : Copy → Option (List Resource)
  outcomes : Outcomes

/-- `getURIs`; fails for a shared disk that is not in the tables. -/
def DataLocation.getURIs (env : Paths) (disks : SharedDiskManager) : DataLocation → Option (List MultiURI)
  | PrivateLocation uri => some [uri]
  | SharedLocation protocol diskName path =>
    (disks.getAllMachinesfromDisk diskName).bind fun hosts => hosts.mapM fun host =>
      (disks.getMounpoint host diskName).map fun m => ⟨protocol, host, withSeparator m ++ path⟩
  | PersistentLocation id => some ((env.getLocations id).map fun host => ⟨.persistentUri, host, id⟩)

def DataLocation.getProtocol : DataLocation → Protocol
  | PrivateLocation uri => uri.protocol
  | SharedLocation protocol _ _ => protocol
  | PersistentLocation _ => .persistentUri

namespace LogicalData

def getURIs (env : Paths) (disks : SharedDiskManager) (d : LogicalData) : Option (List MultiURI) :=
  (d.getLocations.mapM (DataLocation.getURIs env disks)).map List.flatten

def getAllHosts (m : Master) (d : LogicalData) : Option (List Resource) :=
  (d.getLocations.mapM (DataLocation.getHosts m.env m.disks)).map fun hosts => m.hostOrder.entries hosts.flatten.dedup

end LogicalData

namespace Master
variable (m : Master)

/-- An exception leaves the method; the listener has been told nothing. -/
def thrown (s : CopyState) : Obtained := ⟨s, [], false⟩

/-- A file has been copied to the target. -/
def copied (s : CopyState) (target : DataLocation) (targetPath : Text) : Obtained :=
  ⟨{ (s.addLocation (some target)).getD s with dataTarget := some targetPath }, [.notifyEnd], true⟩

/-- A node has been asked to send; none when the next source is to be tried. -/
def asked (s : CopyState) : SendOutcome → Option Obtained
  | .sent => some ⟨s, [.notifyEnd], true⟩
  | .failed => some ⟨s, [.notifyFailure], false⟩
  | .exception => none

local instance lawfulResource : LawfulBEq Resource := inferInstanceAs (LawfulBEq (List Char))

/-- A copy in progress concerns the master by its target, or by its target data. -/
def concerns (copy : Copy) : Option Bool :=
  (copy.tgtLoc.getHosts m.env m.disks).map fun hosts =>
    decide (m.appHost ∈ hosts) || decide (∃ hosts ∈ m.targetDataHosts copy, m.appHost ∈ hosts)

/-- The loop over the copies in progress. -/
def obtainFromCopies (s : CopyState) (target : DataLocation) (targetPath : Text) :
    List CopyInProgress → Nat → Option Obtained
  | [], _ => none
  | cip :: cips, i =>
    match m.concerns cip.c with
    | none => some (thrown s)
    | some false => obtainFromCopies s target targetPath cips (i + 1)
    | some true =>
      match m.outcomes.fromCopy i with
      | .done => some (copied s target targetPath)
      | .ioException => obtainFromCopies s target targetPath cips (i + 1)
      | .runtimeException => some (thrown s)

/-- The loop over the files of the master. -/
def obtainFromMaster (s : CopyState) (target : DataLocation) (targetPath : Text) : List MultiURI → Nat → Option Obtained
  | [], _ => none
  | u :: us, i =>
    if u.host = m.appHost then
      match m.outcomes.fromMaster i with
      | .done => some (copied s target targetPath)
      | .ioException => obtainFromMaster s target targetPath us (i + 1)
      | .runtimeException => some (thrown s)
    else obtainFromMaster s target targetPath us (i + 1)

/-- The loop over the hosts of the source asked for. A file copied here is not
added to the locations. -/
def obtainFromSource (s : CopyState) (source : DataLocation) (targetPath : Text) : List Resource → Nat → Option Obtained
  | [], _ => none
  | host :: hosts, i =>
    match source.getURIInHost m.env m.disks host with
    | none => some (thrown s)
    | some _ =>
      if host = m.appHost then
        match m.outcomes.fromSourceFile i with
        | .done => some ⟨{ s with dataTarget := some targetPath }, [.notifyEnd], true⟩
        | .ioException => obtainFromSource s source targetPath hosts (i + 1)
        | .runtimeException => some (thrown s)
      else (asked s (m.outcomes.fromSourceNode i)).or (obtainFromSource s source targetPath hosts (i + 1))

/-- The loop over all hosts. -/
def obtainFromHosts (s : CopyState) : List Resource → Nat → Option Obtained
  | [], _ => none
  | host :: hosts, i =>
    if host = m.appHost then obtainFromHosts s hosts (i + 1)
    else (asked s (m.outcomes.fromHost i)).or (obtainFromHosts s hosts (i + 1))

/-- A loop over what could not be had throws. -/
def overAll {β : Type} (s : CopyState) (xs : Option (List β)) (loop : List β → Nat → Option Obtained) : Option Obtained :=
  match xs with
  | none => some (thrown s)
  | some xs => loop xs 0

/-- The data is not in memory: its files, wherever they are. After the last one
there is nothing left but a warning. -/
def obtainFile (s : CopyState) (source : Option DataLocation) (target : DataLocation) (targetPath : Text) : Obtained :=
  let fromCopies := m.obtainFromCopies s target targetPath s.src.inProgress 0
  let fromMaster := overAll s (s.src.getURIs m.env m.disks) (m.obtainFromMaster s target targetPath)
  let fromSource := source.bind fun source =>
    overAll s (source.getHosts m.env m.disks) (m.obtainFromSource s source targetPath)
  let fromHosts := overAll s (s.src.getAllHosts m) (m.obtainFromHosts s)
  (((fromCopies.or fromMaster).or fromSource).or fromHosts).getD ⟨s, [], false⟩

def obtainData (s : CopyState) (source : Option DataLocation) (target : DataLocation) : Obtained :=
  match s.src.getLocations.find? fun loc => loc.getProtocol == .persistentUri with
  -- a persistent object need not be transferred
  | some loc => ⟨{ s with dataTarget := some loc.getPath }, [.notifyEnd], true⟩
  | none =>
    match target.getURIInHost m.env m.disks m.appHost with
    | none => thrown s
    | some u =>
      if s.src.value.isSome then
        match m.outcomes.serialize with
        | .runtimeException => thrown s
        | outcome => { copied s target u.path with atTarget := outcome == .done }
      else m.obtainFile s source target u.path

end Master

/-! ## The attempts as one list -/

/-- The listener has been told once, and the truth. -/
def AnswersOnce (r : Obtained) : Prop :=
  r.notices = [if r.atTarget then .notifyEnd else .notifyFailure]

instance (r : Obtained) : Decidable (AnswersOnce r) := inferInstanceAs (Decidable (_ = _))

/-- One attempt to bring the data. -/
inductive Attempt
  | file (outcome : FileOutcome)
  | send (outcome : SendOutcome)
  /-- What it would start from cannot be had. -/
  | thrown
  deriving DecidableEq, Repr

namespace Attempt

/-- The next one is tried. -/
def goesOn : Attempt → Bool
  | file .ioException => true
  | send .exception => true
  | _ => false

/-- The listener is told. -/
def answers : Attempt → Bool
  | file .done => true
  | send .sent => true
  | send .failed => true
  | _ => false

/-- The attempt the method ends with. -/
def last (attempts : List Attempt) : Option Attempt := attempts.find? fun a => !a.goesOn

theorem last_cons_of_goesOn {a : Attempt} (as : List Attempt) (h : a.goesOn = true) : last (a :: as) = last as := by
  simp [last, h]

theorem last_cons_of_not_goesOn {a : Attempt} (as : List Attempt) (h : a.goesOn = false) : last (a :: as) = some a := by
  simp [last, h]

theorem last_append (as bs : List Attempt) : last (as ++ bs) = (last as).or (last bs) := List.find?_append

end Attempt

namespace Master
variable (m : Master)

def copyAttempts : List CopyInProgress → Nat → List Attempt
  | [], _ => []
  | cip :: cips, i =>
    match m.concerns cip.c with
    | none => .thrown :: copyAttempts cips (i + 1)
    | some false => copyAttempts cips (i + 1)
    | some true => .file (m.outcomes.fromCopy i) :: copyAttempts cips (i + 1)

def masterAttempts : List MultiURI → Nat → List Attempt
  | [], _ => []
  | u :: us, i =>
    if u.host = m.appHost then .file (m.outcomes.fromMaster i) :: masterAttempts us (i + 1) else masterAttempts us (i + 1)

def sourceAttempts (source : DataLocation) : List Resource → Nat → List Attempt
  | [], _ => []
  | host :: hosts, i =>
    (match source.getURIInHost m.env m.disks host with
    | none => .thrown
    | some _ => if host = m.appHost then .file (m.outcomes.fromSourceFile i) else .send (m.outcomes.fromSourceNode i))
      :: sourceAttempts source hosts (i + 1)

def hostAttempts : List Resource → Nat → List Attempt
  | [], _ => []
  | host :: hosts, i =>
    if host = m.appHost then hostAttempts hosts (i + 1) else .send (m.outcomes.fromHost i) :: hostAttempts hosts (i + 1)

def attemptAll {β : Type} (xs : Option (List β)) (loop : List β → Nat → List Attempt) : List Attempt :=
  match xs with
  | none => [.thrown]
  | some xs => loop xs 0

/-- All the attempts for data that is not in memory, in their order. -/
def attempts (s : CopyState) (source : Option DataLocation) : List Attempt :=
  m.copyAttempts s.src.inProgress 0
    ++ attemptAll (s.src.getURIs m.env m.disks) m.masterAttempts
    ++ source.elim [] (fun source => attemptAll (source.getHosts m.env m.disks) (m.sourceAttempts source))
    ++ attemptAll (s.src.getAllHosts m) m.hostAttempts

/-! ## The method follows the list -/

/-- What a loop returns is what the attempt it ends with makes of it. -/
def Follows (as : List Attempt) (r : Option Obtained) : Prop :=
  match Attempt.last as, r with
  | none, none => True
  | some a, some r => AnswersOnce r ↔ a.answers = true
  | _, _ => False

theorem follows_nil : Follows [] none := trivial

theorem follows_append {as bs : List Attempt} {r r' : Option Obtained} (h : Follows as r) (h' : Follows bs r') :
    Follows (as ++ bs) (r.or r') := by
  unfold Follows at *
  rw [Attempt.last_append]
  cases ha : Attempt.last as with
  | none =>
    cases r with
    | none => simpa [ha] using h'
    | some r => simp [ha] at h
  | some a =>
    cases r with
    | none => simp [ha] at h
    | some r => simpa [ha] using h

theorem follows_goesOn {a : Attempt} {as : List Attempt} {r : Option Obtained} (ha : a.goesOn = true) (h : Follows as r) :
    Follows (a :: as) r := by
  unfold Follows at *
  rwa [Attempt.last_cons_of_goesOn as ha]

theorem follows_stop {a : Attempt} (as : List Attempt) {r : Obtained} (ha : a.goesOn = false)
    (h : AnswersOnce r ↔ a.answers = true) : Follows (a :: as) (some r) := by
  unfold Follows
  rwa [Attempt.last_cons_of_not_goesOn as ha]

theorem not_answersOnce_thrown (s : CopyState) : ¬ AnswersOnce (thrown s) := by simp [AnswersOnce, thrown]

theorem answersOnce_copied (s : CopyState) (target : DataLocation) (targetPath : Text) :
    AnswersOnce (copied s target targetPath) := by simp [AnswersOnce, copied]

theorem follows_thrown (s : CopyState) (as : List Attempt) : Follows (.thrown :: as) (some (thrown s)) :=
  follows_stop as rfl (by simp [not_answersOnce_thrown, Attempt.answers])

/-- An attempt with a file: the listener is told when it succeeds, an
`IOException` leads on, any other exception out of the method. -/
theorem follows_file {s : CopyState} {o : FileOutcome} {as : List Attempt} {r : Obtained} {rest : Option Obtained}
    (hr : AnswersOnce r) (h : Follows as rest) :
    Follows (.file o :: as)
      (match o with
      | .done => some r
      | .ioException => rest
      | .runtimeException => some (thrown s)) := by
  cases o with
  | done => exact follows_stop as rfl (by simpa [Attempt.answers] using hr)
  | ioException => exact follows_goesOn rfl h
  | runtimeException => exact follows_stop as rfl (by simp [not_answersOnce_thrown, Attempt.answers])

theorem follows_send (s : CopyState) {o : SendOutcome} {as : List Attempt} {rest : Option Obtained} (h : Follows as rest) :
    Follows (.send o :: as) ((asked s o).or rest) := by
  cases o with
  | sent => exact follows_stop as rfl (by simp [AnswersOnce, Attempt.answers])
  | failed => exact follows_stop as rfl (by simp [AnswersOnce, Attempt.answers])
  | exception => exact follows_goesOn rfl (by simpa [asked] using h)

theorem obtainFromCopies_follows (s : CopyState) (target : DataLocation) (targetPath : Text) :
    ∀ cips i, Follows (m.copyAttempts cips i) (m.obtainFromCopies s target targetPath cips i)
  | [], _ => follows_nil
  | cip :: cips, i => by
    have ih := obtainFromCopies_follows s target targetPath cips (i + 1)
    unfold copyAttempts obtainFromCopies
    cases m.concerns cip.c with
    | none => exact follows_thrown s _
    | some concerned =>
      cases concerned with
      | false => exact ih
      | true => exact follows_file (answersOnce_copied s target targetPath) ih

theorem obtainFromMaster_follows (s : CopyState) (target : DataLocation) (targetPath : Text) :
    ∀ us i, Follows (m.masterAttempts us i) (m.obtainFromMaster s target targetPath us i)
  | [], _ => follows_nil
  | u :: us, i => by
    have ih := obtainFromMaster_follows s target targetPath us (i + 1)
    unfold masterAttempts obtainFromMaster
    by_cases hu : u.host = m.appHost
    · simp only [hu, if_true]
      exact follows_file (answersOnce_copied s target targetPath) ih
    · simpa only [hu, if_false] using ih

theorem obtainFromSource_follows (s : CopyState) (source : DataLocation) (targetPath : Text) :
    ∀ hosts i, Follows (m.sourceAttempts source hosts i) (m.obtainFromSource s source targetPath hosts i)
  | [], _ => follows_nil
  | host :: hosts, i => by
    have ih := obtainFromSource_follows s source targetPath hosts (i + 1)
    unfold sourceAttempts obtainFromSource
    cases source.getURIInHost m.env m.disks host with
    | none => exact follows_thrown s _
    | some u =>
      by_cases hhost : host = m.appHost
      · simp only [hhost, if_true]
        exact follows_file (by simp [AnswersOnce]) ih
      · simp only [hhost, if_false]
        exact follows_send s ih

theorem obtainFromHosts_follows (s : CopyState) :
    ∀ hosts i, Follows (m.hostAttempts hosts i) (m.obtainFromHosts s hosts i)
  | [], _ => follows_nil
  | host :: hosts, i => by
    have ih := obtainFromHosts_follows s hosts (i + 1)
    unfold hostAttempts obtainFromHosts
    by_cases hhost : host = m.appHost
    · simpa only [hhost, if_true] using ih
    · simp only [hhost, if_false]
      exact follows_send s ih

theorem overAll_follows {β : Type} (s : CopyState) (xs : Option (List β)) {as : List β → Nat → List Attempt}
    {loop : List β → Nat → Option Obtained} (h : ∀ xs i, Follows (as xs i) (loop xs i)) :
    Follows (attemptAll xs as) (overAll s xs loop) := by
  cases xs with
  | none => exact follows_thrown s []
  | some xs => exact h xs 0

/-- Nobody is told anything after the last attempt. -/
theorem answersOnce_getD {as : List Attempt} {r : Option Obtained} (s : CopyState) (h : Follows as r) :
    AnswersOnce (r.getD ⟨s, [], false⟩) ↔ ∃ a, Attempt.last as = some a ∧ a.answers = true := by
  unfold Follows at h
  cases ha : Attempt.last as with
  | none =>
    cases r with
    | none => simp [AnswersOnce]
    | some r => simp [ha] at h
  | some a =>
    cases r with
    | none => simp [ha] at h
    | some r => simpa [ha] using h

theorem obtainFile_answersOnce (s : CopyState) (source : Option DataLocation) (target : DataLocation) (targetPath : Text) :
    AnswersOnce (m.obtainFile s source target targetPath) ↔
      ∃ a, Attempt.last (m.attempts s source) = some a ∧ a.answers = true := by
  apply answersOnce_getD s
  have fromSource : Follows
      (source.elim [] fun source => attemptAll (source.getHosts m.env m.disks) (m.sourceAttempts source))
      (source.bind fun source => overAll s (source.getHosts m.env m.disks) (m.obtainFromSource s source targetPath)) := by
    cases source with
    | none => exact follows_nil
    | some source => exact overAll_follows s _ (m.obtainFromSource_follows s source targetPath)
  have fromCopies := m.obtainFromCopies_follows s target targetPath s.src.inProgress 0
  have fromMaster := overAll_follows s (s.src.getURIs m.env m.disks) (m.obtainFromMaster_follows s target targetPath)
  have fromHosts := overAll_follows s (s.src.getAllHosts m) (m.obtainFromHosts_follows s)
  exact follows_append (follows_append (follows_append fromCopies fromMaster) fromSource) fromHosts

/-! ## When the listener is told -/

/-- The data is a persistent object; or the target is a place of the master and
the data in memory is written there, or the attempts for its files end with one
that tells the listener. -/
def Answered (s : CopyState) (source : Option DataLocation) (target : DataLocation) : Prop :=
  (∃ loc ∈ s.src.getLocations, loc.getProtocol = .persistentUri) ∨
  (target.getURIInHost m.env m.disks m.appHost ≠ none ∧
    if s.src.value.isSome then m.outcomes.serialize = .done
    else ∃ a, Attempt.last (m.attempts s source) = some a ∧ a.answers = true)

end Master

end Compss.Locations
