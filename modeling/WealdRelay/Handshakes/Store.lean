import Mathlib.Data.List.Pairwise
import WealdRelay.Lib.Run
import WealdRelay.Log.Store

/-!
# The handshake log

`handshake/store.rs` against its tables: `append_within`, which gives a message its place in
the group's order, and `page`, the bounded read of a replay. Rows stand in the order of
their commits, and nothing deletes one.

`appendWithin` is the whole transaction, run alone. `Handshakes/Append.lean` takes it apart
into its statements and shows that any number of them at once answer as if each had been run
alone. Here are the facts about one append: a log whose groups are numbered `0, 1, 2, …`
without a hole stays one (`Dense.append`), and a page is a slice of it (`Dense.page_eq`).
-/

namespace WealdRelay.Handshakes

open Lib List

/-- `MAX_MESSAGE_BYTES`. -/
def maxMessageBytes : Nat := 512 * 1024

/-- One MLS message for one group. -/
structure Handshake where
  group : Bytes
  message : Bytes
deriving DecidableEq

/-- Why a message is refused before the database is asked. -/
inductive HandshakeError where
  | groupWidth (length : Nat)
  | empty
  | tooLarge (length : Nat)
deriving DecidableEq

def Handshake.check (h : Handshake) : Except HandshakeError Unit :=
  if h.group.length ≠ groupBytes then .error (.groupWidth h.group.length)
  else if h.message.isEmpty then .error .empty
  else if maxMessageBytes < h.message.length then .error (.tooLarge h.message.length)
  else .ok ()

/-- The content address, over the group as well as the message. -/
def Handshake.hash (c : Access.Crypto) (h : Handshake) : Bytes := c.blake3 (h.group ++ h.message)

/-- Why an append did not answer with a number. -/
inductive StoreError where
  | database
  | refused (error : HandshakeError)
  | logBudgetExhausted (limit : Nat)
deriving DecidableEq

/-- A row of `relay_handshake`. -/
structure Row where
  groupId : Bytes
  seq : Nat
  message : Bytes
  hash : Bytes
deriving DecidableEq

/-- One stored message, as the replay reads it. -/
structure Stored where
  seq : Nat
  message : Bytes
deriving DecidableEq

def Row.stored (row : Row) : Stored := ⟨row.seq, row.message⟩

/-- What an append did. -/
inductive Appended where
  | stored (seq : Nat)
  | duplicate (seq : Nat)
deriving DecidableEq

def Appended.seq : Appended → Nat
  | .stored seq => seq
  | .duplicate seq => seq

/-- The workspace of each group the relay knows, the handshakes in the order of their
commits, and the bytes each workspace has used. -/
structure Store where
  workspaces : Bytes → Option Bytes
  rows : List Row
  used : Bytes → Nat

/-- The handshakes of one group. -/
def rowsOf (s : Store) (group : Bytes) : List Row :=
  s.rows.filter (fun row => row.groupId = group)

/-- The number a message is stored under. -/
def existing (s : Store) (group hash : Bytes) : Option Nat :=
  (s.rows.find? (fun row => row.groupId = group ∧ row.hash = hash)).map (·.seq)

/-- `coalesce(max(seq) + 1, 0)`. -/
def nextSeq (s : Store) (group : Bytes) : Nat :=
  match ((rowsOf s group).map (·.seq)).max? with
  | none => 0
  | some top => top + 1

/-- The row an append inserts. -/
def rowFor (c : Access.Crypto) (h : Handshake) (seq : Nat) : Row :=
  ⟨h.group, seq, h.message, h.hash c⟩

/-- The insert, with the trigger that charges the workspace. -/
def insert (s : Store) (workspace : Bytes) (row : Row) : Store :=
  { s with
    rows := s.rows ++ [row]
    used := Function.update s.used workspace (s.used workspace + row.message.length) }

/-- The counter read back after the insert. -/
def judge (s : Store) (workspace : Bytes) : Option Nat → Except StoreError Unit
  | none => .ok ()
  | some limit =>
    if Log.overBudget (s.used workspace) (some limit) then .error (.logBudgetExhausted limit)
    else .ok ()

/-- `append_within`, run alone. -/
def appendWithin (c : Access.Crypto) (s : Store) (h : Handshake) (limit : Option Nat) :
    Except StoreError (Appended × Store) := do
  (h.check).mapError .refused
  match s.workspaces h.group with
  | none => .error .database
  | some workspace =>
    -- One statement reads both numbers, and fails where the next one is no `bigint`.
    if Log.bigintBound ≤ nextSeq s h.group then .error .database
    else
      match existing s h.group (h.hash c) with
      | some seq => .ok (.duplicate seq, s)
      | none =>
        let s' := insert s workspace (rowFor c h (nextSeq s h.group))
        judge s' workspace limit
        .ok (.stored (nextSeq s h.group), s')

/-- `page`: the messages from a number on, in order. -/
def page (s : Store) (group : Bytes) (fromSeq : Nat) (limit : Option Nat) : List Stored :=
  (((s.rows.filter (fun row =>
    row.groupId = group ∧ min fromSeq (Log.bigintBound - 1) ≤ row.seq)).insertionSort
      (fun a b => a.seq ≤ b.seq)).take (limit.getD 4294967295)).map Row.stored

/-! ## One append -/

section Append

variable {c : Access.Crypto} {s s' : Store} {h : Handshake} {lim : Option Nat}
  {g hash ws : Bytes} {row : Row}

/-- A group has no message with this address. -/
def Absent (s : Store) (group hash : Bytes) : Prop :=
  ∀ row ∈ s.rows, ¬ (row.groupId = group ∧ row.hash = hash)

theorem existing_eq_none : existing s g hash = none ↔ Absent s g hash := by
  simp [existing, Absent]

variable {seq : Nat}

theorem row_of_existing (h : existing s g hash = some seq) :
    ∃ row ∈ s.rows, row.groupId = g ∧ row.hash = hash ∧ row.seq = seq := by
  obtain ⟨row, hfind, rfl⟩ := Option.map_eq_some_iff.mp h
  have hmatch : row.groupId = g ∧ row.hash = hash := by
    simpa using find?_some hfind
  exact ⟨row, mem_of_find?_eq_some hfind, hmatch.1, hmatch.2, rfl⟩

/-- Everything an append finds in place before it inserts. -/
structure Ready (c : Access.Crypto) (s : Store) (h : Handshake) (seq : Nat) (workspace : Bytes) :
    Prop where
  checked : h.check = .ok ()
  known : s.workspaces h.group = some workspace
  absent : Absent s h.group (h.hash c)
  next : seq = nextSeq s h.group
  fits : seq < Log.bigintBound

/-- The workspace's counter is within the limit once the message is charged. -/
def Within (s : Store) (h : Handshake) (limit : Option Nat) (workspace : Bytes) : Prop :=
  Log.overBudget (s.used workspace + h.message.length) limit = false

theorem judge_insert_ok :
    judge (insert s ws (rowFor c h seq)) ws lim = .ok () ↔ Within s h lim ws := by
  have hused : (insert s ws (rowFor c h seq)).used ws = s.used ws + h.message.length := by
    simp [insert, rowFor]
  cases lim with
  | none => simp [judge, Within, Log.overBudget]
  | some lim => simp [judge, Within, hused]

theorem appendWithin_of_ready (hready : Ready c s h seq ws) (hin : Within s h lim ws) :
    appendWithin c s h lim = .ok (.stored seq, insert s ws (rowFor c h seq)) := by
  simp only [appendWithin, hready.checked, hready.known, existing_eq_none.mpr hready.absent,
    ← hready.next, if_neg (not_le.mpr hready.fits), judge_insert_ok.mpr hin]
  rfl

theorem appendWithin_of_existing (hcheck : h.check = .ok ())
    (hknown : s.workspaces h.group = some ws) (hfits : nextSeq s h.group < Log.bigintBound)
    (hexisting : existing s h.group (h.hash c) = some seq) :
    appendWithin c s h lim = .ok (.duplicate seq, s) := by
  simp only [appendWithin, hcheck, hknown, hexisting, if_neg (not_le.mpr hfits)]
  rfl

/-- What an append that is answered did. -/
theorem appendWithin_ok {a} (hok : appendWithin c s h lim = .ok (a, s')) :
    (∃ seq, existing s h.group (h.hash c) = some seq ∧ a = .duplicate seq ∧ s' = s) ∨
      ∃ seq ws, Ready c s h seq ws ∧ Within s h lim ws ∧
        a = .stored seq ∧ s' = insert s ws (rowFor c h seq) := by
  obtain ⟨⟨⟩, hcheck, hok⟩ := bind_ok hok
  split at hok
  · cases hok
  next ws hknown =>
    obtain ⟨hfits, hok⟩ := guard_ok hok
    split at hok
    next seq hexisting =>
      cases hok
      exact .inl ⟨seq, hexisting, rfl, rfl⟩
    next hnone =>
      obtain ⟨⟨⟩, hjudge, hok⟩ := bind_ok hok
      cases hok
      have hready : Ready c s h (nextSeq s h.group) ws :=
        ⟨mapError_ok hcheck, hknown, existing_eq_none.mp hnone, rfl, not_le.mp hfits⟩
      exact .inr ⟨_, ws, hready, judge_insert_ok.mp hjudge, rfl, rfl⟩

theorem mem_append {a} (hok : appendWithin c s h lim = .ok (a, s'))
    (hrow : row ∈ s.rows) : row ∈ s'.rows := by
  rcases appendWithin_ok hok with ⟨seq, -, -, rfl⟩ | ⟨seq, ws, -, -, -, rfl⟩
  · exact hrow
  · exact mem_append_left _ hrow

end Append

/-! ## A log without holes -/

/-- The message of a row. -/
def Row.handshake (row : Row) : Handshake := ⟨row.groupId, row.message⟩

/-- The numbers of every group are `0, 1, 2, …` in the order of the commits, no group holds
an address twice, and every row is one an append could have written. -/
structure Dense (c : Access.Crypto) (s : Store) : Prop where
  numbered : ∀ group, (rowsOf s group).map (·.seq) = List.range (rowsOf s group).length
  hashes : s.rows.Pairwise (fun a b => ¬ (a.groupId = b.groupId ∧ a.hash = b.hash))
  addressed : ∀ row ∈ s.rows, row.hash = row.handshake.hash c
  checked : ∀ row ∈ s.rows, row.handshake.check = .ok ()
  known : ∀ row ∈ s.rows, ∃ workspace, s.workspaces row.groupId = some workspace

section Rows

variable {c : Access.Crypto} {s s' : Store} {h : Handshake} {lim : Option Nat}
  {g hash ws : Bytes} {row : Row}

theorem mem_rowsOf : row ∈ rowsOf s g ↔ row ∈ s.rows ∧ row.groupId = g := by
  simp [rowsOf]

theorem rowsOf_insert_self (s : Store) (ws : Bytes) (row : Row) :
    rowsOf (insert s ws row) row.groupId = rowsOf s row.groupId ++ [row] := by
  simp [rowsOf, insert]

theorem rowsOf_insert_of_ne (hne : g ≠ row.groupId) : rowsOf (insert s ws row) g = rowsOf s g := by
  simp [rowsOf, insert, Ne.symm hne]

theorem used_insert_of_ne {x} (hne : x ≠ ws) : (insert s ws row).used x = s.used x := by
  simp [insert, hne]

theorem forall_mem_insert {P : Row → Prop} (hrows : ∀ x ∈ s.rows, P x) (hrow : P row) :
    ∀ x ∈ (insert s ws row).rows, P x := by
  intro x ho
  rcases List.mem_append.mp ho with ho | hnew
  · exact hrows x ho
  · rwa [mem_singleton.mp hnew]

theorem absent_insert (habs : Absent s g hash) (hne : g ≠ row.groupId) :
    Absent (insert s ws row) g hash :=
  forall_mem_insert habs fun hmatch => hne hmatch.1.symm

namespace Dense

variable (hs : Dense c s)
include hs

theorem nextSeq_eq (g : Bytes) : nextSeq s g = (rowsOf s g).length := by
  rw [nextSeq, hs.numbered g]
  cases (rowsOf s g).length with
  | zero => rfl
  | succ n =>
    have hmax : (List.range (n + 1)).max? = some n :=
      max?_eq_some_iff.mpr ⟨self_mem_range_succ, fun k hk =>
        Nat.le_of_lt_succ (mem_range.mp hk)⟩
    rw [hmax]

theorem seq_lt (hrow : row ∈ rowsOf s g) : row.seq < (rowsOf s g).length := by
  have hmem := mem_map_of_mem (f := Row.seq) hrow
  rw [hs.numbered g] at hmem
  exact mem_range.mp hmem

theorem insert {seq} (hready : Ready c s h seq ws) : Dense c (insert s ws (rowFor c h seq)) where
  numbered := by
    intro g
    by_cases heq : g = h.group
    · subst heq
      rw [show h.group = (rowFor c h seq).groupId from rfl, rowsOf_insert_self, map_append,
        length_append, length_singleton, range_succ]
      have hnext := hready.next.trans (hs.nextSeq_eq h.group)
      exact congrArg₂ (· ++ ·) (hs.numbered h.group) (congrArg ([·]) hnext)
    · rw [rowsOf_insert_of_ne heq]
      exact hs.numbered g
  hashes := pairwise_snoc hs.hashes hready.absent
  addressed := forall_mem_insert hs.addressed rfl
  checked := forall_mem_insert hs.checked hready.checked
  known := forall_mem_insert hs.known ⟨ws, hready.known⟩

theorem eq_of_hash (hrow : row ∈ s.rows) {x} (ho : x ∈ s.rows)
    (hg : x.groupId = row.groupId) (hh : x.hash = row.hash) : x = row := by
  by_contra hne
  have hsymm : Std.Symm (fun a b : Row => ¬ (a.groupId = b.groupId ∧ a.hash = b.hash)) :=
    ⟨fun a b hab hba => hab ⟨hba.1.symm, hba.2.symm⟩⟩
  exact hs.hashes.forall ho hrow hne ⟨hg, hh⟩

theorem existing_eq (hrow : row ∈ s.rows) : existing s row.groupId row.hash = some row.seq := by
  cases hexisting : existing s row.groupId row.hash with
  | none => exact absurd ⟨rfl, rfl⟩ (existing_eq_none.mp hexisting row hrow)
  | some seq =>
    obtain ⟨x, ho, hg, hh, rfl⟩ := row_of_existing hexisting
    rw [hs.eq_of_hash hrow ho hg hh]

/-- An append of a message that is stored answers with its number and changes nothing. -/
theorem append_again (hrow : row ∈ s.rows)
    (hbound : (rowsOf s row.groupId).length < Log.bigintBound) (lim : Option Nat) :
    appendWithin c s row.handshake lim = .ok (.duplicate row.seq, s) := by
  obtain ⟨ws, hknown⟩ := hs.known row hrow
  have hexisting := hs.existing_eq hrow
  rw [hs.addressed row hrow] at hexisting
  rw [← hs.nextSeq_eq] at hbound
  exact appendWithin_of_existing (hs.checked row hrow) hknown hbound hexisting

omit hs in
theorem filter_eq_drop {rows : List Row} {start : Nat}
    (hrows : rows.map (·.seq) = range' start rows.length) (k : Nat) :
    rows.filter (k ≤ ·.seq) = rows.drop (k - start) := by
  induction rows generalizing start with
  | nil => simp
  | cons row rows ih =>
    simp only [map_cons, length_cons, range'_succ, List.cons.injEq] at hrows
    obtain ⟨rfl, hr⟩ := hrows
    by_cases hk : k ≤ row.seq
    · rw [filter_cons_of_pos (by simpa using hk), ih hr, Nat.sub_eq_zero_of_le hk,
        Nat.sub_eq_zero_of_le (Nat.le_succ_of_le hk), drop_zero, drop_zero]
    · rw [filter_cons_of_neg (by simpa using hk), ih hr,
        show k - row.seq = k - (row.seq + 1) + 1 by omega, drop_succ_cons]

theorem page_eq {fromSeq : Nat} (hfrom : fromSeq < Log.bigintBound) (lim : Option Nat) :
    page s g fromSeq lim =
      (((rowsOf s g).drop fromSeq).take (lim.getD 4294967295)).map Row.stored := by
  have hclamp : min fromSeq (Log.bigintBound - 1) = fromSeq := min_eq_left (by omega)
  have hnum := hs.numbered g
  have hselect : s.rows.filter (fun row =>
      row.groupId = g ∧ min fromSeq (Log.bigintBound - 1) ≤ row.seq) =
        (rowsOf s g).drop fromSeq := by
    rw [range_eq_range'] at hnum
    have hdrop := filter_eq_drop hnum fromSeq
    rw [Nat.sub_zero] at hdrop
    rw [← hdrop, rowsOf, filter_filter, hclamp]
    exact filter_congr fun row _ => by simp [and_comm]
  have hsort : ((rowsOf s g).drop fromSeq).Pairwise (fun a b => a.seq ≤ b.seq) := by
    refine .sublist (drop_sublist _ _) (pairwise_map.mp ?_)
    rw [hnum]
    exact pairwise_le_range
  rw [page, hselect, hsort.insertionSort_eq]

theorem page_seqs (g : Bytes) {fromSeq} (hfrom : fromSeq < Log.bigintBound) (size : Nat) :
    (page s g fromSeq (some size)).map Stored.seq =
      range' fromSeq (min size ((rowsOf s g).length - fromSeq)) := by
  have hseqs : ((rowsOf s g).drop fromSeq).map Row.seq =
      range' fromSeq ((rowsOf s g).length - fromSeq) := by
    rw [map_drop, hs.numbered g, range_eq_range', drop_range', Nat.zero_add, Nat.mul_one]
  rw [hs.page_eq hfrom, Option.getD_some, map_map, show Stored.seq ∘ Row.stored = Row.seq from rfl,
    map_take, hseqs]
  refine ext_getElem (by simp) fun i _ _ => ?_
  simp

end Dense

end Rows

end WealdRelay.Handshakes
