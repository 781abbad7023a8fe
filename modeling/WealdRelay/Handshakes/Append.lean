import WealdRelay.Handshakes.Store
import WealdRelay.Lib.Procs

/-!
# Appends and replays that run at once

The statements of `append_within` as turns of processes over one handshake log, and readers
that page through a group beside them. A transaction holds the group's row from its first
statement on and the workspace's counter from its insert on; its row reaches the log at its
commit. A statement may fail, which rolls the transaction back, and the answer of a commit
may be lost after the commit has happened.

What a transaction has read stays true while it holds the two rows (`Relies`), so the commit
is an append run alone at that moment (`linearize`). The results about any number of
appends then are results about `appendWithin`.
-/

namespace WealdRelay.Handshakes

open Lib List

/-- The rows a transaction can hold. -/
inductive Lock where
  | group (id : Bytes)
  | budget (workspace : Bytes)
deriving DecidableEq

/-- Where a process stands: the statement it runs next, with what it has read so far. -/
inductive Phase where
  | idle
  | lock (h : Handshake) (limit : Option Nat)
  | read (h : Handshake) (limit : Option Nat)
  | insert (h : Handshake) (limit : Option Nat) (next : Nat)
  | judge (h : Handshake) (limit : Option Nat) (next : Nat) (workspace : Bytes)
  | commit (h : Handshake) (limit : Option Nat) (next : Nat) (workspace : Bytes)
  | appended (h : Handshake) (appended : Appended)
  | refused (error : StoreError)
  | paging (group : Bytes) (limit : Option Nat) (got : List Stored)
deriving DecidableEq

/-- What a process does with its turn. -/
inductive Action where
  | append (h : Handshake) (limit : Option Nat)
  | replay (group : Bytes) (limit : Option Nat)
  | turn
  | fail
  | lose
deriving DecidableEq

@[simp]
def Phase.locks : Phase → List Lock
  | .read h _ | .insert h _ _ => [.group h.group]
  | .judge h _ _ workspace | .commit h _ _ workspace => [.group h.group, .budget workspace]
  | _ => []

/-- The rows a statement writes or locks. -/
def needs : Action → Store → Phase → List Lock
  | .turn, _, .lock h _ => [.group h.group]
  | .turn, s, .insert h _ _ => (s.workspaces h.group).toList.map .budget
  | _, _, _ => []

/-- One past the last message a reader has. -/
def cursor (got : List Stored) : Nat :=
  match got.getLast? with
  | none => 0
  | some last => last.seq + 1

/-- Does a unique index stop the insert? -/
def conflicts (s : Store) (group hash : Bytes) (seq : Nat) : Bool :=
  s.rows.any (fun row => row.groupId = group ∧ (row.hash = hash ∨ row.seq = seq))

section Statement

variable (c : Access.Crypto)

/-- One statement against the log as it stands. -/
def statement (s : Store) : Phase → Option (Store × Phase)
  | .lock h limit =>
    match s.workspaces h.group with
    | none => some (s, .refused .database)
    | some _ => some (s, .read h limit)
  | .read h limit =>
    if Log.bigintBound ≤ nextSeq s h.group then some (s, .refused .database)
    else
      match existing s h.group (h.hash c) with
      | some seq => some (s, .appended h (.duplicate seq))
      | none => some (s, .insert h limit (nextSeq s h.group))
  | .insert h limit next =>
    match s.workspaces h.group with
    | none => some (s, .refused .database)
    | some workspace =>
      if conflicts s h.group (h.hash c) next then some (s, .refused .database)
      else some (s, .judge h limit next workspace)
  | .judge h limit next workspace =>
    match judge (insert s workspace (rowFor c h next)) workspace limit with
    | .error error => some (s, .refused error)
    | .ok () => some (s, .commit h limit next workspace)
  | .commit h _ next workspace =>
    some (insert s workspace (rowFor c h next), .appended h (.stored next))
  | .paging group limit got =>
    some (s, .paging group limit (got ++ page s group (cursor got) limit))
  | .idle | .appended _ _ | .refused _ => none

/-- Is this process inside a call? -/
def Phase.busy : Phase → Bool
  | .idle | .appended _ _ | .refused _ => false
  | _ => true

/-- One turn. -/
def act : Action → Store → Phase → Option (Store × Phase)
  | .append h limit, s, .idle =>
    match h.check with
    | .error error => some (s, .refused (.refused error))
    | .ok () => some (s, .lock h limit)
  | .replay group limit, s, .idle => some (s, .paging group limit [])
  | .turn, s, a => statement c s a
  | .fail, s, a => if a.busy then some (s, .refused .database) else none
  | .lose, s, .commit h _ next workspace =>
    some (insert s workspace (rowFor c h next), .refused .database)
  | _, _, _ => none

end Statement

/-! ## What a turn does -/

/-- Every way a turn can go. -/
inductive Moves (c : Access.Crypto) (s : Store) : Action → Phase → Store → Phase → Prop
  | begin {m limit} :
      m.check = .ok () → Moves c s (.append m limit) .idle s (.lock m limit)
  | replay {group limit} :
      Moves c s (.replay group limit) .idle s (.paging group limit [])
  | refuse {i a error} :
      (∀ m appended, a ≠ .appended m appended) → Moves c s i a s (.refused error)
  | locked {m limit workspace} :
      s.workspaces m.group = some workspace → Moves c s .turn (.lock m limit) s (.read m limit)
  | found {m limit seq} :
      nextSeq s m.group < Log.bigintBound → existing s m.group (m.hash c) = some seq →
        Moves c s .turn (.read m limit) s (.appended m (.duplicate seq))
  | absent {m limit} :
      nextSeq s m.group < Log.bigintBound → existing s m.group (m.hash c) = none →
        Moves c s .turn (.read m limit) s (.insert m limit (nextSeq s m.group))
  | inserted {m limit next workspace} :
      s.workspaces m.group = some workspace →
        Moves c s .turn (.insert m limit next) s (.judge m limit next workspace)
  | judged {m limit next workspace} :
      Within s m limit workspace →
        Moves c s .turn (.judge m limit next workspace) s (.commit m limit next workspace)
  | committed {m limit next workspace} :
      Moves c s .turn (.commit m limit next workspace)
        (insert s workspace (rowFor c m next)) (.appended m (.stored next))
  | lost {m limit next workspace} :
      Moves c s .lose (.commit m limit next workspace)
        (insert s workspace (rowFor c m next)) (.refused .database)
  | paged {group limit got} :
      Moves c s .turn (.paging group limit got) s
        (.paging group limit (got ++ page s group (cursor got) limit))

section Turns

variable {c : Access.Crypto} {i : Action} {s s' : Store} {a a' : Phase}

theorem statement_moves (h : statement c s a = some (s', a')) : Moves c s .turn a s' a' := by
  cases a with
  | idle | appended | refused => cases h
  | lock m lim =>
    simp only [statement] at h
    split at h <;> cases h
    · exact .refuse nofun
    next hknown => exact .locked hknown
  | read m lim =>
    simp only [statement] at h
    split at h
    · cases h
      exact .refuse nofun
    next hfits =>
      split at h <;> cases h
      next hexisting => exact .found (not_le.mp hfits) hexisting
      next hnone => exact .absent (not_le.mp hfits) hnone
  | insert m lim next =>
    simp only [statement] at h
    split at h
    · cases h
      exact .refuse nofun
    next hknown =>
      split at h <;> cases h
      · exact .refuse nofun
      · exact .inserted hknown
  | judge m lim next ws =>
    simp only [statement] at h
    split at h <;> cases h
    · exact .refuse nofun
    next hjudge => exact .judged (judge_insert_ok.mp hjudge)
  | commit m lim next ws =>
    cases h
    exact .committed
  | paging g lim got =>
    cases h
    exact .paged

variable (h : act c i s a = some (s', a'))
include h

theorem act_moves : Moves c s i a s' a' := by
  cases i with
  | append m lim =>
    cases a <;> simp only [act, reduceCtorEq] at h
    split at h <;> cases h
    · exact .refuse nofun
    next hcheck => exact .begin hcheck
  | replay g lim =>
    cases a <;> cases h
    exact .replay
  | turn => exact statement_moves h
  | fail =>
    simp only [act] at h
    split at h <;> cases h
    next hbusy => exact .refuse (by rintro m appended rfl; cases hbusy)
  | lose =>
    cases a <;> cases h
    exact .lost

theorem locks_act : ∀ row ∈ a'.locks, row ∈ a.locks ∨ row ∈ needs i s a := by
  intro row hrow
  cases act_moves h with
  | begin | replay | refuse | found | committed | lost | paged => cases hrow
  | locked hknown => exact .inr hrow
  | absent | judged => exact .inl hrow
  | inserted hknown => simpa [needs, hknown] using hrow

/-- Only a commit writes the log, and it ends its call. -/
theorem act_store :
    s' = s ∨ ∃ m lim next ws, a = .commit m lim next ws ∧ s' = insert s ws (rowFor c m next) ∧
      (a' = .appended m (.stored next) ∨ a' = .refused .database) := by
  cases act_moves h with
  | committed => exact .inr ⟨_, _, _, _, rfl, rfl, .inl rfl⟩
  | lost => exact .inr ⟨_, _, _, _, rfl, rfl, .inr rfl⟩
  | _ => exact .inl rfl

end Turns

/-- The handshake log as a machine. -/
def machine (c : Access.Crypto) : Machine Store Phase Action Lock where
  act := act c
  needs := needs
  locks := Phase.locks
  locks_act := locks_act

/-! ## What a transaction relies on -/

/-- A reader has the first messages of a group. -/
def Has (s : Store) (group : Bytes) (got : List Stored) : Prop :=
  got = ((rowsOf s group).take got.length).map Row.stored

theorem Has.length_le {s g got} (h : Has s g got) : got.length ≤ (rowsOf s g).length := by
  have hlen := congrArg List.length h
  rw [length_map, length_take] at hlen
  omega

/-- What a process relies on until its next statement. -/
def Relies (c : Access.Crypto) (s : Store) : Phase → Prop
  | .lock m _ => m.check = .ok ()
  | .read m _ => m.check = .ok () ∧ ∃ workspace, s.workspaces m.group = some workspace
  | .insert m _ next => ∃ workspace, Ready c s m next workspace
  | .judge m _ next workspace => Ready c s m next workspace
  | .commit m limit next workspace => Ready c s m next workspace ∧ Within s m limit workspace
  | .paging group _ got =>
    (rowsOf s group).length < Log.bigintBound → Has s group got
  | _ => True

section Relies

variable {c : Access.Crypto} {i : Action} {s s' : Store} {a a' b : Phase} {m : Handshake}
  {g : Bytes} {next : Nat} {got : List Stored} {ws : Bytes}

theorem cursor_eq (hs : Dense c s) (hgot : Has s g got) : cursor got = got.length := by
  have hle := hgot.length_le
  have hseqs : got.map (·.seq) = List.range got.length := by
    rw [hgot, map_map, show (Stored.seq ∘ Row.stored) = Row.seq from rfl, map_take,
      hs.numbered g, take_range, length_map, length_take, min_eq_left hle]
  have hlast : got.getLast?.map (·.seq) = (List.range got.length).getLast? := by
    rw [← hseqs, getLast?_map]
  rw [cursor]
  cases hend : got.getLast? with
  | none =>
    rw [getLast?_eq_none_iff.mp hend]
    rfl
  | some last =>
    rw [hend, getLast?_range] at hlast
    split at hlast
    · cases hlast
    · have hseq : last.seq = got.length - 1 := Option.some.inj hlast
      show last.seq + 1 = got.length
      omega

theorem page_continues (hs : Dense c s) (hbound : (rowsOf s g).length < Log.bigintBound)
    (hgot : Has s g got) (lim : Option Nat) :
    got ++ page s g (cursor got) lim =
      ((rowsOf s g).take (got.length + lim.getD 4294967295)).map Row.stored := by
  have hle := hgot.length_le
  rw [cursor_eq hs hgot, hs.page_eq (lt_of_le_of_lt hle hbound), take_add, map_append, ← hgot]

theorem relies_act (hs : Dense c s) (ha : Relies c s a) (h : act c i s a = some (s', a')) :
    Dense c s' ∧ Relies c s' a' := by
  cases act_moves h with
  | begin hcheck => exact ⟨hs, hcheck⟩
  | replay => exact ⟨hs, fun _ => rfl⟩
  | refuse | found => exact ⟨hs, trivial⟩
  | locked hknown => exact ⟨hs, ha, _, hknown⟩
  | absent hfits hnone =>
    obtain ⟨hcheck, ws, hknown⟩ := ha
    exact ⟨hs, ws, hcheck, hknown, existing_eq_none.mp hnone, rfl, hfits⟩
  | inserted hknown =>
    obtain ⟨ws, hready⟩ := ha
    obtain rfl := Option.some.inj (hready.known.symm.trans hknown)
    exact ⟨hs, hready⟩
  | judged hin => exact ⟨hs, ha, hin⟩
  | committed | lost => exact ⟨hs.insert ha.1, trivial⟩
  | paged =>
    refine ⟨hs, fun hbound => ?_⟩
    rw [Has, page_continues hs hbound (ha hbound), length_map, length_take, ← take_eq_take_min]

/-- A row committed for another group, in a workspace this transaction does not charge. -/
theorem Ready.insert {x row} (hready : Ready c s m next ws)
    (hne : m.group ≠ row.groupId) : Ready c (insert s x row) m next ws :=
  { hready with
    absent := absent_insert hready.absent hne
    next := by
      rw [nextSeq, rowsOf_insert_of_ne hne]
      exact hready.next }

theorem rowsOf_insert_eq (s : Store) (ws : Bytes) (row : Row) (g : Bytes) :
    ∃ more, rowsOf (Handshakes.insert s ws row) g = rowsOf s g ++ more := by
  by_cases heq : g = row.groupId
  · subst heq
    exact ⟨[row], rowsOf_insert_self s ws row⟩
  · exact ⟨[], by rw [rowsOf_insert_of_ne heq, append_nil]⟩

/-- A commit leaves alone what a process relies on that holds neither of its rows. -/
theorem relies_insert (hb : Relies c s b) (hg : Lock.group m.group ∉ b.locks)
    (hbudget : Lock.budget ws ∉ b.locks) : Relies c (insert s ws (rowFor c m next)) b := by
  cases b with
  | idle | appended | refused => trivial
  | lock | read => exact hb
  | insert m' limit' next' =>
    obtain ⟨workspace', hready⟩ := hb
    exact ⟨workspace', hready.insert fun heq => hg (by simp [heq, rowFor])⟩
  | judge m' limit' next' workspace' =>
    exact .insert hb fun heq => hg (by simp [heq, rowFor])
  | commit m' limit' next' workspace' =>
    refine ⟨hb.1.insert fun heq => hg (by simp [heq, rowFor]), ?_⟩
    have hne : workspace' ≠ ws := fun heq => hbudget (by simp [heq])
    rw [Within, used_insert_of_ne hne]
    exact hb.2
  | paging g lim got =>
    intro hbound
    obtain ⟨more, hmore⟩ := rowsOf_insert_eq s ws (rowFor c m next) g
    have hless : (rowsOf s g).length < Log.bigintBound := by
      rw [hmore, length_append] at hbound
      omega
    have hgot := hb hless
    rw [Has, hmore, take_append_of_le_length hgot.length_le]
    exact hgot

end Relies

/-! ## Runs -/

section Runs

variable {π : Type} [DecidableEq π] {c : Access.Crypto} {w w' x y : World π Store Phase}
  {labels : List (π × Action)} {p : π} {i : Action}

/-- The invariant of appends and replays. -/
def Sound (c : Access.Crypto) (w : World π Store Phase) : Prop :=
  (machine c).Holds (Dense c) (Relies c) (fun _ _ => True) w

/-- No process has started, and the log has no hole. -/
structure Opening (c : Access.Crypto) (w : World π Store Phase) : Prop where
  dense : Dense c w.store
  idle : ∀ p, w.phase p = .idle

omit [DecidableEq π] in
theorem Opening.sound (h : Opening c w) : Sound c w :=
  Machine.Holds.of_idle h.idle rfl h.dense trivial trivial

theorem Sound.run (h : Sound c w) (hrun : Run (machine c).Step w labels w') : Sound c w' := by
  refine Machine.Holds.run (fun _ _ _ => trivial) (fun hs ha hact => relies_act hs ha hact) ?_ h
    (Machine.run_under hrun)
  intro i s a s' a' b hbeside hact
  refine ⟨?_, trivial⟩
  rcases act_store hact with rfl | ⟨m, lim, next, ws, rfl, rfl, -⟩
  · exact hbeside.other
  · exact relies_insert hbeside.other (hbeside.held _ (by simp [machine]))
      (hbeside.held _ (by simp [machine]))

/-- A commit is an append run alone, and no other turn writes. -/
theorem Sound.linearize (h : Sound c x) (hs : (machine c).Step x (p, i) y) :
    y.store = x.store ∨ ∃ m lim seq, appendWithin c x.store m lim = .ok (.stored seq, y.store) ∧
      (y.phase p = .appended m (.stored seq) ∨ y.phase p = .refused .database) := by
  obtain ⟨s', a', hact, -, rfl⟩ := hs
  rcases act_store hact with rfl | ⟨m, lim, next, ws, ha, rfl, hend⟩
  · exact .inl rfl
  · have hrel : Relies c x.store (.commit m lim next ws) := ha ▸ h.phase p
    refine .inr ⟨m, lim, next, appendWithin_of_ready hrel.1 hrel.2, ?_⟩
    rwa [World.move_phase_self]

/-- Every answer is the one an append run alone gives at that moment. -/
theorem Sound.answer (h : Sound c x) (hs : (machine c).Step x (p, i) y) {m a}
    (hans : y.phase p = .appended m a) :
    ∃ lim, appendWithin c x.store m lim = .ok (a, y.store) := by
  have hrel := h.phase p
  obtain ⟨s', a', hact, -, rfl⟩ := hs
  rw [World.move_phase_self] at hans
  subst hans
  generalize x.phase p = phase at hact hrel
  cases act_moves hact with
  | found hfits hexisting =>
    obtain ⟨hcheck, ws, hknown⟩ := hrel
    exact ⟨none, appendWithin_of_existing hcheck hknown hfits hexisting⟩
  | committed => exact ⟨_, appendWithin_of_ready hrel.1 hrel.2⟩

/-- A call for a message that is stored at this number: it has not got past its first read,
or is answered with the number. -/
def Again (row : Row) : Phase → Prop
  | .lock m _ | .read m _ => m = row.handshake
  | .appended m a => m = row.handshake ∧ a = .duplicate row.seq
  | .refused _ => True
  | _ => False

variable {row : Row} {limit : Option Nat}

theorem again_act {s s' a a'} (hs : Dense c s) (hrow : row ∈ s.rows)
    (ha : Again row a) (h : act c i s a = some (s', a')) : Again row a' := by
  cases act_moves h with
  | begin | replay | paged | inserted | judged | committed | lost => exact ha.elim
  | refuse => trivial
  | locked => exact ha
  | found hfits hexisting =>
    obtain rfl : _ = row.handshake := ha
    have hf := hs.existing_eq hrow
    rw [hs.addressed row hrow] at hf
    exact ⟨rfl, congrArg Appended.duplicate (Option.some.inj (hexisting.symm.trans hf))⟩
  | absent hfits hnone =>
    obtain rfl : _ = row.handshake := ha
    exact absurd ⟨rfl, hs.addressed row hrow⟩ (existing_eq_none.mp hnone row hrow)

theorem again_start (hs : (machine c).Step x (p, .append row.handshake limit) y) :
    y.store = x.store ∧ Again row (y.phase p) := by
  obtain ⟨s', a', hact, -, rfl⟩ := hs
  rw [World.move_store, World.move_phase_self]
  generalize x.phase p = phase at hact
  cases act_moves hact with
  | begin => exact ⟨rfl, rfl⟩
  | refuse => exact ⟨rfl, trivial⟩

theorem again_run (hx : Sound c x) (hrow : row ∈ x.store.rows) (hp : Again row (x.phase p))
    (hrun : Run (machine c).Step x labels y) : Again row (y.phase p) := by
  refine (Run.invariant (I := fun v => Sound c v ∧ row ∈ v.store.rows ∧ Again row (v.phase p))
    ?_ hrun ⟨hx, hrow, hp⟩).2.2
  rintro v ⟨q, j⟩ v' ⟨hv, hrow, hp⟩ hs
  refine ⟨hv.run (Run.cons hs (Run.nil _)), ?_, ?_⟩
  · rcases hv.linearize hs with heq | ⟨m, limit, seq, hok, -⟩
    · rwa [heq]
    · exact mem_append hok hrow
  · obtain ⟨s', a', hact, -, rfl⟩ := hs
    by_cases heq : p = q
    · subst heq
      rw [World.move_phase_self]
      exact again_act hv.store hrow hp hact
    · rw [World.move_phase_of_ne v heq]
      exact hp

/-- What one turn of a run that ends in `w'` did. -/
structure Faithful (c : Access.Crypto) (w' x : World π Store Phase) (p : π) (i : Action)
    (y : World π Store Phase) : Prop where
  grows : y.store = x.store ∨ ∃ m workspace,
    y.store = insert x.store workspace (rowFor c m (rowsOf x.store m.group).length)
  alone : ∀ m a, y.phase p = .appended m a →
    ∃ limit, appendWithin c x.store m limit = .ok (a, y.store)
  duplicate : ∀ m seq, w'.phase p = .appended m (.duplicate seq) → y.store = x.store
  rolledBack : ∀ limit, w'.phase p = .refused (.logBudgetExhausted limit) → y.store = x.store
  again : ∀ limit row m a, i = .append row.handshake limit → row ∈ x.store.rows →
    w'.phase p = .appended m a → a = .duplicate row.seq
  pages : ∀ group limit got, x.phase p = .paging group limit got → i = .turn →
    (rowsOf x.store group).length < Log.bigintBound →
    y.phase p = .paging group limit
      (((rowsOf x.store group).take (got.length + limit.getD 4294967295)).map Row.stored)

theorem Sound.grows (h : Sound c x) (hs : (machine c).Step x (p, i) y) : y.store = x.store ∨ ∃ m ws,
      y.store = insert x.store ws (rowFor c m (rowsOf x.store m.group).length) := by
  rcases h.linearize hs with heq | ⟨m, limit, seq, hok, -⟩
  · exact .inl heq
  · rcases appendWithin_ok hok with ⟨_, -, hne, -⟩ | ⟨seq', ws, hready, -, -, heq⟩
    · cases hne
    · rw [hready.next, h.store.nextSeq_eq] at heq
      exact .inr ⟨m, ws, heq⟩

/-- A process whose call ended in any other way did not write. -/
theorem Sound.unchanged (h : Sound c x) (hs : (machine c).Step x (p, i) y)
    (hrun : Run (machine c).Step y labels w')
    (hstored : ∀ m seq, w'.phase p ≠ .appended m (.stored seq))
    (hdatabase : w'.phase p ≠ .refused .database) : y.store = x.store := by
  rcases h.linearize hs with heq | ⟨m, limit, seq, -, hend⟩
  · exact heq
  · -- The call is over, so its phase is still the one the commit left.
    have hlast : w'.phase p = y.phase p := by
      refine Machine.phase_of_ended (m := machine c) (fun j s => ?_) hrun
      rcases hend with hend | hend <;> rw [hend] <;> cases j <;> rfl
    rcases hend with hend | hend
    · exact absurd (hlast.trans hend) (hstored m seq)
    · exact absurd (hlast.trans hend) hdatabase

theorem Sound.pages (h : Sound c x) (hs : (machine c).Step x (p, .turn) y) {g got}
    (hp : x.phase p = .paging g limit got) (hbound : (rowsOf x.store g).length < Log.bigintBound) :
    y.phase p = .paging g limit
      (((rowsOf x.store g).take (got.length + limit.getD 4294967295)).map Row.stored) := by
  have hgot : Has x.store g got := by
    have hrel := h.phase p
    rw [hp] at hrel
    exact hrel hbound
  obtain ⟨s', a', hact, -, rfl⟩ := hs
  rw [hp] at hact
  cases hact
  rw [World.move_phase_self, page_continues h.store hbound hgot]

/-- However many appends and replays run at once, the log has no hole and no message twice,
a stored message is appended again under its own number, every answer is that of an append
run alone, and a reader gets the group's messages in order. -/
theorem handshake_log_dense
    (hopen : Opening c w)
    (hrun : Run (machine c).Step w labels w') :
    Dense c w'.store ∧ (∀ row ∈ w'.store.rows, ∀ limit,
        (rowsOf w'.store row.groupId).length < Log.bigintBound →
        appendWithin c w'.store row.handshake limit = .ok (.duplicate row.seq, w'.store)) ∧
      ∀ before p i after x y, labels = before ++ (p, i) :: after →
        Run (machine c).Step w before x → (machine c).Step x (p, i) y →
        Run (machine c).Step y after w' → Faithful c w' x p i y := by
  have hend := (hopen.sound.run hrun).store
  refine ⟨hend, fun row hrow limit hbound => hend.append_again hrow hbound limit, ?_⟩
  intro before p i after x y _ hb hs ha
  have hx := hopen.sound.run hb
  refine ⟨hx.grows hs, fun m a => hx.answer hs, ?_, ?_, ?_, ?_⟩
  · intro m seq hp
    exact hx.unchanged hs ha (by simp [hp]) (by simp [hp])
  · intro limit hp
    exact hx.unchanged hs ha (by simp [hp]) (by simp [hp])
  · rintro limit row m a rfl hrow hp
    obtain ⟨hstore, hagain⟩ := again_start hs
    rw [← hstore] at hrow
    have hlast := again_run (hx.run (.cons hs (.nil _))) hrow hagain ha
    rw [hp] at hlast
    exact hlast.2
  · rintro group limit got hp rfl hbound
    exact hx.pages hs hp hbound

end Runs

/-! ## A message that is sent twice -/

section Sample

def sampleCrypto : Access.Crypto := ⟨fun data => data, fun _ _ _ => false⟩

def sampleGroup : Bytes := id32 1

def sampleMessage : Handshake := ⟨sampleGroup, [7]⟩

def sampleStart : World Caller Store Phase where
  store := ⟨fun group => if group = sampleGroup then some (id32 9) else none, [], fun _ => 0⟩
  phase := fun _ => .idle

/-- Both start before either has the group's row; the second gets it after the commit of the
first. -/
def sampleLabels : List (Caller × Action) :=
  [(.first, .append sampleMessage none), (.second, .append sampleMessage none), (.first, .turn),
    (.first, .turn), (.first, .turn), (.first, .turn), (.first, .turn), (.second, .turn),
    (.second, .turn)]

theorem opening_sampleStart : Opening sampleCrypto sampleStart where
  dense := ⟨fun _ => rfl, List.Pairwise.nil, nofun, nofun, nofun⟩
  idle := fun _ => rfl

theorem exec_sampleLabels :
    ((machine sampleCrypto).exec (fun _ _ _ _ => True) sampleStart sampleLabels).map
        (fun w => (w.phase .second, w.store.rows)) =
      some (.appended sampleMessage (.duplicate 0), [rowFor sampleCrypto sampleMessage 0]) := by
  decide +kernel

/-- The second send is answered with the number of the first. -/
theorem sampleLabels_dense : ∃ w' : World Caller Store Phase,
      w'.phase .second = .appended sampleMessage (.duplicate 0) ∧ Dense sampleCrypto w'.store := by
  obtain ⟨w', hexec, hw'⟩ := Option.map_eq_some_iff.mp exec_sampleLabels
  exact ⟨w', (Prod.mk.inj hw').1, (handshake_log_dense opening_sampleStart
    (Machine.run_of_exec hexec)).1⟩

end Sample

end WealdRelay.Handshakes
