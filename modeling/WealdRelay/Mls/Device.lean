import WealdRelay.Mls.Session
import Mathlib.Logic.Function.Basic

/-!
# Creating and joining groups

`Device` of `weald-mls/src/session.rs`. OpenMLS writes a group to the device's store as it
creates or joins it. The device then reads its signing key back, and after an external commit
it serializes the commit; both may be refused with the group already in the store.
-/

namespace WealdRelay.Mls

inductive DeviceError where
  | invalidArgument (text : String)
  | session (error : Error)
deriving DecidableEq

/-- A device by its store: the groups, what is said against loading one, and whether the
signing key is there. -/
structure Device where
  groups : Bytes → Option Group
  loadFault : Bytes → Option String
  signingKey : Bool

/-- `MlsMessageBodyIn`, as far as the joins tell its bodies apart. -/
inductive Body (μ : Type) where
  | welcome (welcome : μ)
  | groupInfo (info : μ)
  | other

/-- The calls of OpenMLS up to the one that writes the group, with `μ` for its own objects. -/
structure Joining (μ : Type) where
  newWithGroupId : Device → Bytes → Except String Group
  decode : Bytes → Except String μ
  extract : μ → Body μ
  newFromWelcome : Device → μ → Except String μ
  intoGroup : Device → μ → Except String (Bytes × Group)
  buildGroup : Device → μ → Except String μ
  build : Device → μ → Except String μ
  finalize : Device → μ → Except String ((Bytes × Group) × Bytes)

/-- `MAX`, one mebibyte. -/
def maxMessage : Nat := 1 <<< 20

def serialize (message : Bytes) : Except DeviceError Bytes :=
  if maxMessage < message.length then
    .error (.invalidArgument s!"message is {message.length} bytes, over the 1048576 byte ceiling")
  else .ok message

def protocol {α : Type} (answer : Except String α) : Except DeviceError α :=
  answer.mapError (fun text => .session (.protocol text))

def malformed {α : Type} (answer : Except String α) : Except DeviceError α :=
  answer.mapError (fun text => .session (.malformed text))

namespace Device

def session (device : Device) (group : Group) : Except DeviceError Group :=
  if device.signingKey then .ok group
  else .error (.session (.storage "this device's signing key is not in its store"))

def openGroup (device : Device) (id : Bytes) : Except DeviceError (Option Group) :=
  if id = [] then .error (.invalidArgument "group id is empty")
  else
    match device.loadFault id, device.groups id with
    | some text, _ => .error (.session (.storage text))
    | none, none => .ok none
    | none, some group => (device.session group).map some

/-- The group is in the store. -/
def write (device : Device) (id : Bytes) (group : Group) : Device :=
  { device with groups := Function.update device.groups id (some group) }

/-- What OpenMLS made is in the store when the rest of a call begins. -/
def stored {α κ : Type} (device : Device) (made : Except DeviceError ((Bytes × Group) × κ))
    (rest : Group → κ → Except DeviceError α) : Except DeviceError α × Device :=
  match made with
  | .error error => (.error error, device)
  | .ok ((id, group), bundle) => (rest group bundle, device.write id group)

variable {μ : Type} (mls : Joining μ) (device : Device)

def created (id : Bytes) : Except DeviceError ((Bytes × Group) × Unit) :=
  if id = [] then .error (.invalidArgument "group id is empty")
  else (protocol (mls.newWithGroupId device id)).map (fun group => ((id, group), ()))

def createGroup (id : Bytes) : Except DeviceError Group × Device :=
  device.stored (created mls device id) (fun group _ => device.session group)

def welcomed (welcome : Bytes) : Except DeviceError ((Bytes × Group) × Unit) := do
  let message ← malformed (mls.decode welcome)
  match mls.extract message with
  | .welcome welcome =>
    let staged ← protocol (mls.newFromWelcome device welcome)
    let group ← protocol (mls.intoGroup device staged)
    return (group, ())
  | _ => .error (.session (.malformed "not a welcome"))

def joinWelcome (welcome : Bytes) : Except DeviceError Group × Device :=
  device.stored (welcomed mls device welcome) (fun group _ => device.session group)

def committed (info : Bytes) : Except DeviceError ((Bytes × Group) × Bytes) := do
  let message ← malformed (mls.decode info)
  match mls.extract message with
  | .groupInfo info =>
    let builder ← protocol (mls.buildGroup device info)
    let built ← protocol (mls.build device builder)
    protocol (mls.finalize device built)
  | _ => .error (.session (.malformed "not a group info"))

def joinExternal (info : Bytes) : Except DeviceError (Group × Bytes) × Device :=
  device.stored (committed mls device info) (fun group commit => do
    let session ← device.session group
    let bytes ← serialize commit
    return (session, bytes))

/-- `open_group` answers as if the group were in the store already. -/
def Answers (id : Bytes) (group : Group) : Prop :=
  id = [] ∨ device.loadFault id ≠ none ∨
    ∃ old, device.groups id = some old ∧ (device.signingKey = true → old = group)

/-- OpenMLS makes a group that is news to `open_group`, with a bundle the call then refuses. -/
def Strands {κ : Type} (made : Except DeviceError ((Bytes × Group) × κ)) (refused : κ → Prop) :
    Prop :=
  ∃ id group bundle, made = .ok ((id, group), bundle) ∧ refused bundle ∧ ¬ Answers device id group

/-- If the call was refused, every answer of `open_group` is as it was. -/
def LeavesNone {α : Type} (call : Except DeviceError α × Device) : Prop :=
  (∃ error, call.1 = .error error) → ∀ id, call.2.openGroup id = device.openGroup id

variable {device} {id : Bytes} {group : Group}

theorem openGroup_write_of_ne {other : Bytes} (h : other ≠ id) :
    (device.write id group).openGroup other = device.openGroup other := by
  simp only [openGroup, write, Function.update_of_ne h]
  rfl

theorem openGroup_write_iff :
    (device.write id group).openGroup id = device.openGroup id ↔ Answers device id group := by
  by_cases hid : id = []
  · simp [openGroup, Answers, hid]
  cases hfault : device.loadFault id with
  | some text => simp [openGroup, Answers, write, hid, hfault]
  | none =>
    simp only [openGroup, Answers, write, hid, hfault, Function.update_self, if_false]
    cases device.groups id with
    | none =>
      rw [session]
      split <;> simp [Except.map]
    | some old =>
      cases hkey : device.signingKey with
      | false => simp [session, hkey, Except.map]
      | true => simp [session, hkey, Except.map, eq_comm]

theorem leavesNone_stored_iff {α κ : Type} {made : Except DeviceError ((Bytes × Group) × κ)}
    {rest : Group → κ → Except DeviceError α} {refused : κ → Prop}
    (hrest : ∀ group bundle, (∃ error, rest group bundle = .error error) ↔ refused bundle) :
    LeavesNone device (device.stored made rest) ↔ ¬ Strands device made refused := by
  rcases made with error | ⟨⟨id, group⟩, bundle⟩
  · simp [LeavesNone, stored, Strands]
  constructor
  · rintro h ⟨_, _, _, ⟨⟩, hrefused, hnews⟩
    exact hnews (openGroup_write_iff.mp (h ((hrest group bundle).mpr hrefused) id))
  · intro h hrefused other
    by_cases hother : other = id
    · subst hother
      refine openGroup_write_iff.mpr (Classical.not_not.mp fun hnews => h ?_)
      exact ⟨_, group, bundle, rfl, (hrest group bundle).mp hrefused, hnews⟩
    · exact openGroup_write_of_ne hother

theorem session_refused : (∃ error, device.session group = .error error) ↔
    device.signingKey = false := by
  cases hkey : device.signingKey <;> simp [session, hkey]

/-- A refused call leaves no group behind, exactly if OpenMLS does not make one that is new to
the store while the signing key is missing or, for an external commit, the commit is too large. -/
theorem refused_join_leaves_none_iff
    (mls : Joining μ)
    (device : Device) :
    (∀ id, LeavesNone device (createGroup mls device id) ↔
      ¬ Strands device (created mls device id) (fun _ => device.signingKey = false)) ∧
    (∀ welcome, LeavesNone device (joinWelcome mls device welcome) ↔
      ¬ Strands device (welcomed mls device welcome) (fun _ => device.signingKey = false)) ∧
    ∀ info, LeavesNone device (joinExternal mls device info) ↔
      ¬ Strands device (committed mls device info)
        (fun commit => device.signingKey = false ∨ maxMessage < commit.length) := by
  refine ⟨fun id => ?_, fun welcome => ?_, fun info => ?_⟩
  · exact leavesNone_stored_iff fun _ _ => session_refused
  · exact leavesNone_stored_iff fun _ _ => session_refused
  · refine leavesNone_stored_iff fun group commit => ?_
    cases hkey : device.signingKey with
    | false => simp [session, hkey, bind, Except.bind]
    | true =>
      by_cases hlarge : maxMessage < commit.length
      · simp [session, hkey, serialize, hlarge, bind, Except.bind]
      · simp [session, hkey, serialize, hlarge, bind, Except.bind, pure, Except.pure]

/-- A library with this external commit. -/
def commitsWith (commit : Bytes) : Joining Unit where
  newWithGroupId _ _ := .error ""
  decode _ := .ok ()
  extract := .groupInfo
  newFromWelcome _ := .ok
  intoGroup _ _ := .error ""
  buildGroup _ := .ok
  build _ := .ok
  finalize _ _ := .ok (([1], ⟨4, [0, 1], [], none⟩), commit)

def freshDevice : Device := ⟨fun _ => none, fun _ => none, true⟩

/-- The join is refused for its commit, and the group is there. -/
theorem refused_commit_leaves_group : ∃ commit,
    (∃ error, (joinExternal (commitsWith commit) freshDevice []).1 = .error error) ∧
      freshDevice.openGroup [1] = .ok none ∧
      (joinExternal (commitsWith commit) freshDevice []).2.openGroup [1] =
        .ok (some ⟨4, [0, 1], [], none⟩) := by
  obtain ⟨commit, hlarge⟩ : ∃ commit : Bytes, maxMessage < commit.length :=
    ⟨List.replicate (maxMessage + 1) 0, List.length_replicate ▸ Nat.lt_add_one maxMessage⟩
  refine ⟨commit, ?_, rfl, rfl⟩
  simp [joinExternal, stored, committed, commitsWith, freshDevice, session, serialize, malformed,
    protocol, Except.mapError, hlarge, bind, Except.bind]

end Device
end WealdRelay.Mls
