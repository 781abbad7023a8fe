import WealdRelay.Cbor
import WealdRelay.Lib.Run

/-!
# The recovery tag directory

One group's `DirectoryEntry` of `weald-mls/src/recovery.rs`, and a committer that prepares
the entry, publishes a commit with its wraps and activates the entry. It may crash between
any two of these; the next commit then starts with its own `prepare`.

An entry has one candidate. A `prepare` for another commit overwrites it, and if the old
candidate's commit had been published its wraps are under a tag the entry no longer names.
-/

namespace WealdRelay.Directory

open Lib

structure DirectoryEntry where
  group : Bytes
  current : Option Bytes
  candidate : Option Bytes
  fallback : Option Bytes
  target : Option Bytes
  activated : Option Bytes
deriving DecidableEq

inductive DirectoryError where
  | neverPrepared
deriving DecidableEq

namespace DirectoryEntry

/-- A group with no wrap published yet. -/
def new (group : Bytes) : DirectoryEntry := ⟨group, none, none, none, none, none⟩

def prepare (entry : DirectoryEntry) (candidate target : Bytes) : DirectoryEntry :=
  if entry.target = some target then entry
  else { entry with candidate := some candidate, target := some target }

def activate (entry : DirectoryEntry) (target : Bytes) : Except DirectoryError DirectoryEntry :=
  if entry.target ≠ some target then
    -- The retry of an activation that was already written.
    if entry.activated = some target then .ok entry else .error .neverPrepared
  else
    match entry.candidate with
    | none => .ok entry
    | some candidate =>
      .ok { entry with
        candidate := none, fallback := entry.current, current := some candidate,
        target := none, activated := some target }

/-- Every tag worth trying, in order. -/
def tags (entry : DirectoryEntry) : List Bytes :=
  [entry.candidate, entry.current, entry.fallback].filterMap id

end DirectoryEntry

/-- A commit, by the tag of its wraps and its hash. -/
structure Commit where
  tag : Bytes
  target : Bytes
deriving DecidableEq

def firstCommit : Commit := ⟨id32 1, id32 3⟩

def secondCommit : Commit := ⟨id32 2, id32 4⟩

/-- How far the committer has come with its commit. -/
inductive Phase where
  | idle
  | prepared (commit : Commit)
  | published (commit : Commit)
deriving DecidableEq

/-- The entry, where the committer is, and the last commit that was published. -/
structure Handoff where
  entry : DirectoryEntry
  phase : Phase
  last : Option Commit
deriving DecidableEq

inductive Event where
  | prepare (commit : Commit)
  | publish
  | activate
  | crash
deriving DecidableEq

namespace Handoff

def fresh (group : Bytes) : Handoff := ⟨.new group, .idle, none⟩

def step (s : Handoff) : Event → Option Handoff
  | .prepare commit =>
    if s.phase = .idle then
      some { s with
        entry := s.entry.prepare commit.tag commit.target, phase := .prepared commit }
    else none
  | .publish =>
    match s.phase with
    | .prepared commit => some { s with phase := .published commit, last := some commit }
    | _ => none
  | .activate =>
    match s.phase with
    | .published commit =>
      match s.entry.activate commit.target with
      | .ok entry => some { s with entry, phase := .idle }
      | .error _ => some { s with phase := .idle }
    | _ => none
  | .crash => some { s with phase := .idle }

/-- A commit is prepared under the tag it was prepared under before, or replaces a candidate
that is not the last published commit's. -/
def orderly (s : Handoff) : Event → Bool
  | .prepare commit =>
    if s.entry.target = some commit.target then s.entry.candidate == some commit.tag
    else s.last.all (fun last => s.entry.target != some last.target)
  | _ => true

/-- A step of a committer that prepares in order. -/
def Step (s : Handoff) (event : Event) (t : Handoff) : Prop :=
  s.step event = some t ∧ s.orderly event = true

/-- The entry is prepared for the commit. -/
def Awaits (entry : DirectoryEntry) (commit : Commit) : Prop :=
  entry.target = some commit.target ∧ entry.candidate = some commit.tag

/-- The commit in progress is prepared, and the last published one is too or is current. -/
structure Reaches (s : Handoff) : Prop where
  prepared : ∀ commit, s.phase = .prepared commit → Awaits s.entry commit
  published : ∀ commit, s.phase = .published commit → Awaits s.entry commit ∧ s.last = some commit
  last : ∀ commit, s.last = some commit → Awaits s.entry commit ∨ s.entry.current = some commit.tag

variable {s t : Handoff} {event : Event}

theorem Reaches.step (h : s.Reaches) (hs : s.Step event t) : t.Reaches := by
  obtain ⟨hs, horderly⟩ := hs
  cases event with
  | prepare commit =>
    simp only [Handoff.step] at hs
    split_ifs at hs
    cases hs
    by_cases heq : s.entry.target = some commit.target
    · -- The same commit again: the entry stays as it is.
      simp only [orderly, heq, if_true, beq_iff_eq] at horderly
      simp only [DirectoryEntry.prepare, heq, if_true]
      exact ⟨by rintro _ ⟨⟩; exact ⟨heq, horderly⟩, nofun, h.last⟩
    · simp only [orderly, heq, if_false, Option.all_eq_true, bne_iff_ne] at horderly
      simp only [DirectoryEntry.prepare, heq, if_false]
      refine ⟨by rintro _ ⟨⟩; exact ⟨rfl, rfl⟩, nofun, fun last hlast => .inr ?_⟩
      exact (h.last last hlast).resolve_left fun hawaits => horderly last hlast hawaits.1
  | publish =>
    simp only [Handoff.step] at hs
    split at hs
    next commit hphase =>
      cases hs
      have hawaits := h.prepared commit hphase
      exact ⟨nofun, by rintro _ ⟨⟩; exact ⟨hawaits, rfl⟩, by rintro _ ⟨⟩; exact .inl hawaits⟩
    next => cases hs
  | activate =>
    simp only [Handoff.step] at hs
    split at hs
    next commit hphase =>
      obtain ⟨⟨htarget, hcandidate⟩, hlast⟩ := h.published commit hphase
      simp only [DirectoryEntry.activate, htarget, hcandidate, ne_eq, not_true_eq_false,
        if_false] at hs
      cases hs
      refine ⟨nofun, nofun, fun last hin => .inr ?_⟩
      cases hlast.symm.trans hin
      rfl
    next => cases hs
  | crash =>
    cases hs
    exact ⟨nofun, nofun, h.last⟩

/-- In every run of orderly steps the entry's tags contain that of the last published commit. -/
theorem directory_reaches_last
    {group : Bytes}
    {events : List Event}
    {last : Commit}
    (hrun : Run Step (fresh group) events s)
    (hlast : s.last = some last) :
    last.tag ∈ s.entry.tags := by
  have hreaches : s.Reaches :=
    Run.invariant (fun _ _ _ h hs => h.step hs) hrun ⟨nofun, nofun, nofun⟩
  rcases hreaches.last last hlast with ⟨-, hcandidate⟩ | hcurrent
  · simp [DirectoryEntry.tags, hcandidate]
  · simp [DirectoryEntry.tags, hcurrent]

/-- A commit that is handed over whole, and the next one up to its publication. -/
theorem directory_reaches_second : ∃ events s, Run Step (fresh (id32 5)) events s ∧
    s.last = some secondCommit ∧ secondCommit.tag ∈ s.entry.tags := by
  have hrun : Run Step (fresh (id32 5))
      [.prepare firstCommit, .publish, .activate, .prepare secondCommit, .publish] _ :=
    .cons ⟨rfl, rfl⟩ (.cons ⟨rfl, rfl⟩ (.cons ⟨rfl, rfl⟩ (.cons ⟨rfl, rfl⟩
      (.cons ⟨rfl, rfl⟩ (.nil _)))))
  exact ⟨_, _, hrun, rfl, directory_reaches_last hrun rfl⟩

/-- A crash after the publication, and the next commit's `prepare` drops the published tag. -/
theorem prepare_drops_published : ∃ events s last,
    Run (fun s event t => step s event = some t) (fresh (id32 5)) events s ∧
      s.last = some last ∧ last.tag ∉ s.entry.tags :=
  ⟨[.prepare firstCommit, .publish, .crash, .prepare secondCommit], _, firstCommit,
    .cons rfl (.cons rfl (.cons rfl (.cons rfl (.nil _)))), rfl, by decide⟩

end Handoff

/-! ## Repeated calls -/

namespace DirectoryEntry

inductive Call where
  | prepare (tag target : Bytes)
  | activate (target : Bytes)
deriving DecidableEq

/-- The entry after a call; a refused one leaves it as it was. -/
def call (entry : DirectoryEntry) : Call → DirectoryEntry
  | .prepare tag target => entry.prepare tag target
  | .activate target =>
    match entry.activate target with
    | .ok entry => entry
    | .error _ => entry

/-- A call for a commit comes again; an `activate` does not find the entry prepared for the
commit once more. -/
inductive Repeats (commit : Commit) : DirectoryEntry → Call → DirectoryEntry → Prop
  | prepare {entry} :
      Repeats commit entry (.prepare commit.tag commit.target)
        (entry.call (.prepare commit.tag commit.target))
  | activate {entry} (hunprepared : entry.target ≠ some commit.target) :
      Repeats commit entry (.activate commit.target) (entry.call (.activate commit.target))

variable {commit : Commit} {entry again : DirectoryEntry} {c : Call}

theorem Repeats.keeps (h : Repeats commit entry c again) :
    again.current = entry.current ∧ again.fallback = entry.fallback := by
  cases h with
  | prepare =>
    rw [call, DirectoryEntry.prepare]
    split <;> exact ⟨rfl, rfl⟩
  | activate hunprepared =>
    rw [call, DirectoryEntry.activate, if_pos hunprepared]
    by_cases hactivated : entry.activated = some commit.target
    · simp [hactivated]
    · simp [hactivated]

/-- However often the calls of a commit are repeated, and in whatever order, the current tag
and the fallback stay, if no `activate` finds the entry prepared for the commit once more. -/
theorem repeats_keep_tags
    {calls : List Call}
    (hrun : Run (Repeats commit) entry calls again) :
    again.current = entry.current ∧ again.fallback = entry.fallback := by
  refine hrun.invariant (I := fun e => e.current = entry.current ∧ e.fallback = entry.fallback)
    (fun _ _ _ h hstep => ?_) ⟨rfl, rfl⟩
  obtain ⟨hcurrent, hfallback⟩ := hstep.keeps
  exact ⟨hcurrent.trans h.1, hfallback.trans h.2⟩

/-- An entry after two commits. -/
def handedOver : DirectoryEntry :=
  [.prepare firstCommit.tag firstCommit.target, .activate firstCommit.target,
    .prepare secondCommit.tag secondCommit.target, .activate secondCommit.target].foldl call
    (new (id32 5))

theorem repeats_keep_tags_late :
    ((handedOver.call (.activate secondCommit.target)).call
      (.prepare secondCommit.tag secondCommit.target)).fallback = some firstCommit.tag := by
  have hrun : Run (Repeats secondCommit) handedOver [_, _] _ :=
    .cons (.activate (by decide)) (.cons .prepare (.nil _))
  exact (repeats_keep_tags hrun).2

/-- A late `prepare` and a repeated `activate` of the second commit lose the fallback. -/
theorem repeated_handoff_rotates : handedOver.activated = some secondCommit.target ∧
    handedOver.current = some secondCommit.tag ∧ handedOver.fallback = some firstCommit.tag ∧
      ((handedOver.call (.prepare secondCommit.tag secondCommit.target)).call
        (.activate secondCommit.target)).fallback = some secondCommit.tag := by
  decide

end DirectoryEntry

end WealdRelay.Directory
