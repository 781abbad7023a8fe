import WealdRelay.Hub.Registry
import WealdRelay.Lib.Run
import WealdRelay.Lib.Table

/-!
# The calls a relay carries

`calls/mod.rs`: a table of calls, each with the group it was opened for, the connections in
it and the moment it was last used. A join first drops the calls that are idle. A call is
used when a connection enters it and when one in it sends media. An offer repeated by a
connection that is in the call is admitted and leaves the moment as it is.

Each action keeps the table in shape (`Shaped.apply`), so in every run the table is bounded
and a call holds only connections that have asked for it under its group.
-/

namespace WealdRelay.Calls

open Lib Hub

def maxParticipantsPerCall : Nat := 5

/-- `CALL_IDLE_MS`, in nanoseconds as every moment here. -/
def callIdle : Nat := 2 * 60 * 1000 * 1000000

/-- One call in flight. -/
structure Call where
  callId : Bytes
  group : Bytes
  participants : List ConnectionId
  lastActivity : Nat
deriving DecidableEq

inductive JoinRefusal where
  | groupMismatch
  | tooManyCalls
  | callFull
deriving DecidableEq

/-- What one media fanout did. -/
structure Routed where
  sent : Nat
  shed : Nat
  gone : Nat
deriving DecidableEq

section Functions

variable (maxConcurrent now : Nat) (callId group : Bytes) (connection : ConnectionId)
  (calls : List Call)

/-- `drop_idle`. -/
def dropIdle : List Call := calls.filter (fun call => now - call.lastActivity < callIdle)

/-- `share`. -/
def share : Nat := max (maxConcurrent / 4) 1

/-- `holds`. -/
def holds : Bool :=
  (Table.lookup Call.callId calls callId).any (fun call => call.participants.contains connection)

/-- `join`. -/
def join : Except JoinRefusal Unit × List Call :=
  let calls := dropIdle now calls
  match Table.lookup Call.callId calls callId with
  | some call =>
    if call.group ≠ group then (.error .groupMismatch, calls)
    else if call.participants.contains connection then (.ok (), calls)
    else if maxParticipantsPerCall ≤ call.participants.length then (.error .callFull, calls)
    else (.ok (), Table.modify Call.callId calls callId (fun call =>
      { call with participants := call.participants ++ [connection], lastActivity := now }))
  | none =>
    if maxConcurrent ≤ calls.length then (.error .tooManyCalls, calls)
    else if share maxConcurrent ≤ calls.countP (·.participants.contains connection) then
      (.error .tooManyCalls, calls)
    else (.ok (), calls ++ [⟨callId, group, [connection], now⟩])

/-- `leave`. -/
def leave : List Call :=
  (Table.modify Call.callId calls callId (fun call =>
    { call with participants := call.participants.filter (· ≠ connection) })).filter
      (fun call => call.callId ≠ callId ∨ call.participants ≠ [])

/-- `forget`. -/
def forget : List Call :=
  (calls.map (fun call =>
    { call with participants := call.participants.filter (· ≠ connection) })).filter
      (fun call => call.participants ≠ [])

/-- `route`: refused for a connection that is not in the call. -/
def route (queued : ConnectionId → Queued) : Option Routed × List Call :=
  match Table.lookup Call.callId calls callId with
  | none => (none, calls)
  | some call =>
    if call.participants.contains connection then
      let others := call.participants.filter (· ≠ connection)
      (some ⟨others.countP (queued · = .sent), others.countP (queued · = .full),
          others.countP (queued · = .closed)⟩,
        Table.modify Call.callId calls callId (fun call =>
          { call with
            participants := call.participants.filter (fun id =>
              id = connection ∨ queued id ≠ .closed)
            lastActivity := now }))
    else (none, calls)

end Functions

/-! ## Runs -/

inductive Action where
  | join (callId group : Bytes) (connection : ConnectionId)
  | leave (callId : Bytes) (connection : ConnectionId)
  | forget (connection : ConnectionId)
  | route (callId : Bytes) (connection : ConnectionId) (queued : ConnectionId → Queued)
  | dropIdle

variable {maxConcurrent now : Nat} {calls : List Call} {action : Action}

/-- The calls after an action. -/
def Action.apply (maxConcurrent now : Nat) (calls : List Call) : Action → List Call
  | .join callId group connection =>
    (Calls.join maxConcurrent now callId group connection calls).2
  | .leave callId connection => Calls.leave callId connection calls
  | .forget connection => Calls.forget connection calls
  | .route callId connection queued => (Calls.route now callId connection calls queued).2
  | .dropIdle => Calls.dropIdle now calls

/-- The action uses the call: an admitted join of a connection that was not in it, or accepted
media. -/
def Action.Uses (maxConcurrent now : Nat) (calls : List Call) (callId : Bytes) : Action → Prop
  | .join id group connection => id = callId ∧
      (Calls.join maxConcurrent now id group connection calls).1 = .ok () ∧
        holds id connection (Calls.dropIdle now calls) = false
  | .route id connection queued => id = callId ∧
      (Calls.route now id connection calls queued).1.isSome
  | _ => False

/-- The calls, the moment of the last action, and when each call was used so far. -/
structure Record where
  calls : List Call
  clock : Nat
  used : Bytes → Nat → Prop

/-- An action at a moment that is not before the last one. -/
inductive Step (maxConcurrent : Nat) : Record → Nat × Action → Record → Prop
  | act {r now action} (hclock : r.clock ≤ now) : Step maxConcurrent r (now, action)
      ⟨action.apply maxConcurrent now r.calls, now, fun callId t =>
        r.used callId t ∨ t = now ∧ action.Uses maxConcurrent now r.calls callId⟩

theorem mem_dropIdle {call : Call} : call ∈ dropIdle now calls ↔
    call ∈ calls ∧ now - call.lastActivity < callIdle := by
  simp [dropIdle]

section Cases

variable {callId g : Bytes} {connection : ConnectionId} {call : Call}

/-- The calls with one id are used now, the others stay. -/
theorem mem_modify_cases {f : Call → Call} (hf : ∀ call, (f call).lastActivity = now)
    (h : call ∈ Table.modify Call.callId calls callId f) :
    call.lastActivity = now ∨ call ∈ calls ∧ call.callId ≠ callId := by
  obtain ⟨old, hold, rfl⟩ := Table.mem_modify.mp h
  split
  · exact .inl (hf old)
  next hne => exact .inr ⟨hold, hne⟩

/-- A join changes nothing but the idle calls, or the connection enters the call. -/
theorem join_cases {ans} (h : join maxConcurrent now callId g connection calls = ans) :
    ans.2 = dropIdle now calls ∧
        (ans.1 = .ok () → holds callId connection (dropIdle now calls) = true) ∨
      ∀ call ∈ ans.2,
        call.lastActivity = now ∨ call ∈ dropIdle now calls ∧ call.callId ≠ callId := by
  simp only [join] at h
  split at h
  next found hf =>
    split_ifs at h with hg hholds hfull <;> subst h
    · exact .inl ⟨rfl, fun h => by cases h⟩
    · exact .inl ⟨rfl, fun _ => by rw [holds, hf]; exact hholds⟩
    · exact .inl ⟨rfl, fun h => by cases h⟩
    · exact .inr fun call hcall => mem_modify_cases (fun _ => rfl) hcall
  next hnone =>
    split_ifs at h with hmany hshare <;> subst h
    · exact .inl ⟨rfl, fun h => by cases h⟩
    · exact .inl ⟨rfl, fun h => by cases h⟩
    · exact .inr (forall_mem_snoc
        (fun call hcall => .inr ⟨hcall, Table.ne_of_lookup_eq_none hnone hcall⟩) (.inl rfl))

theorem route_cases {queued ans} (h : route now callId connection calls queued = ans) :
    ans = (none, calls) ∨ ∀ call ∈ ans.2,
      call.lastActivity = now ∨ call ∈ calls ∧ call.callId ≠ callId := by
  simp only [route] at h
  split at h
  · exact .inl h.symm
  · split_ifs at h <;> subst h
    · exact .inr fun call hcall => mem_modify_cases (fun _ => rfl) hcall
    · exact .inl rfl

/-- A call after an action was used just now, or it was there with the same moment and the
action does not use it. -/
theorem Action.apply_cases (h : call ∈ action.apply maxConcurrent now calls) :
    call.lastActivity = now ∨ ∃ old ∈ calls, old.callId = call.callId ∧
      old.lastActivity = call.lastActivity ∧ ¬ action.Uses maxConcurrent now calls call.callId := by
  cases action with
  | join callId g connection =>
    rcases join_cases (rfl : Calls.join maxConcurrent now callId g connection calls = _) with
      ⟨hcalls, hholds⟩ | hmoved
    · rw [Action.apply, hcalls, mem_dropIdle] at h
      refine .inr ⟨call, h.1, rfl, rfl, ?_⟩
      rintro ⟨-, hok, hnot⟩
      rw [hholds hok] at hnot
      cases hnot
    · refine (hmoved call h).imp_right fun ⟨hcall, hne⟩ => ?_
      exact ⟨call, (mem_dropIdle.mp hcall).1, rfl, rfl, fun huses => hne huses.1.symm⟩
  | leave callId connection =>
    obtain ⟨old, hold, rfl⟩ := Table.mem_modify.mp (List.mem_of_mem_filter h)
    refine .inr ⟨old, hold, ?_, ?_, nofun⟩ <;> split <;> rfl
  | forget connection =>
    obtain ⟨old, hold, rfl⟩ := List.mem_map.mp (List.mem_of_mem_filter h)
    exact .inr ⟨old, hold, rfl, rfl, nofun⟩
  | route callId connection queued =>
    rcases route_cases (rfl : Calls.route now callId connection calls queued = _) with
      hrefused | hmoved
    · rw [Action.apply, hrefused] at h
      refine .inr ⟨call, h, rfl, rfl, ?_⟩
      rintro ⟨-, hsome⟩
      rw [hrefused] at hsome
      cases hsome
    · refine (hmoved call h).imp_right fun ⟨hcall, hne⟩ => ?_
      exact ⟨call, hcall, rfl, rfl, fun huses => hne huses.1.symm⟩
  | dropIdle => exact .inr ⟨call, (mem_dropIdle.mp h).1, rfl, rfl, nofun⟩

end Cases

/-- No call was used after the moment it has, and none in the future. -/
structure Stamped (r : Record) : Prop where
  past : ∀ callId t, r.used callId t → t ≤ r.clock
  last : ∀ call ∈ r.calls, ∀ t, r.used call.callId t → t ≤ call.lastActivity

theorem Stamped.step {r r' : Record} {label : Nat × Action} (hr : Stamped r)
    (hs : Step maxConcurrent r label r') : Stamped r' := by
  obtain ⟨hclock⟩ := hs
  have hpast : ∀ callId t, r.used callId t → t ≤ _ := fun callId t ht =>
    (hr.past callId t ht).trans hclock
  refine ⟨fun callId t => ?_, fun call hcall t => ?_⟩
  · rintro (ht | ⟨rfl, -⟩)
    · exact hpast callId t ht
    · exact le_rfl
  · rcases Action.apply_cases hcall with hnow | ⟨old, hold, hid, heq, hnot⟩
    · rw [hnow]
      rintro (ht | ⟨rfl, -⟩)
      · exact hpast _ t ht
      · exact le_rfl
    · rintro (ht | ⟨-, huses⟩)
      · rw [← heq]
        exact hr.last old hold t (hid ▸ ht)
      · exact absurd huses hnot

/-- Nothing has happened. -/
def start : Record := ⟨[], 0, fun _ _ => False⟩

/-- Whatever joins, leaves and media there were, a call that is dropped as idle was neither
entered nor sent media within the time a call may be idle. -/
theorem dropped_call_was_idle
    {labels r}
    (hrun : Run (Step maxConcurrent) start labels r)
    {call : Call}
    (hcall : call ∈ r.calls)
    (hdropped : call ∉ dropIdle now r.calls)
    {t : Nat}
    (hused : r.used call.callId t) :
    t + callIdle ≤ now := by
  have hstamped : Stamped r :=
    hrun.invariant (fun _ _ _ hr hs => hr.step hs) ⟨nofun, nofun⟩
  have hlast := hstamped.last call hcall t hused
  have hidle : ¬ now - call.lastActivity < callIdle := fun h =>
    hdropped (mem_dropIdle.mpr ⟨hcall, h⟩)
  have hpos : 0 < callIdle := by decide
  omega

/-- A call that is opened at the start. -/
def opened : Record :=
  ⟨[⟨id16 7, id32 8, [1], 0⟩], 0, fun callId t => False ∨ t = 0 ∧
    (Action.join (id16 7) (id32 8) 1).Uses 4 0 [] callId⟩

theorem opened_run : Run (Step 4) start [(0, .join (id16 7) (id32 8) 1)] opened ∧
    opened.used (id16 7) 0 :=
  ⟨.cons (.act (le_refl 0)) (.nil _), .inr ⟨rfl, rfl, rfl, rfl⟩⟩

theorem dropped_call_was_idle_opened :
    opened.calls = [⟨id16 7, id32 8, [1], 0⟩] ∧ dropIdle callIdle opened.calls = [] ∧
      0 + callIdle ≤ callIdle := by
  have hdropped : dropIdle callIdle opened.calls = [] := by decide
  refine ⟨rfl, hdropped, ?_⟩
  exact dropped_call_was_idle opened_run.1 (List.mem_singleton.mpr rfl)
    (hdropped ▸ List.not_mem_nil) opened_run.2

/-- A call that was entered at the very moment from which it counts as idle is dropped. -/
theorem call_dropped_on_the_moment : Run (Step 4) start [(0, .join (id16 7) (id32 8) 1)] opened ∧
    opened.used (id16 7) (callIdle - callIdle) ∧ opened.calls ≠ [] ∧
      dropIdle callIdle opened.calls = [] := by
  refine ⟨opened_run.1, ?_, by decide, by decide⟩
  rw [Nat.sub_self]
  exact opened_run.2

/-! ## Who is in a call -/

section Shape

open List

/-- The offer of a connection for a call of a group was made. -/
def Offered (past : List (Nat × Action)) (callId group : Bytes) (connection : ConnectionId) :
    Prop :=
  ∃ now, (now, .join callId group connection) ∈ past

/-- The calls after the actions so far: one under an id and no more than may be open, each
with between one and five connections, all of which have offered to join it for its group. -/
structure Shaped (maxConcurrent : Nat) (past : List (Nat × Action)) (calls : List Call) : Prop where
  ids : (calls.map Call.callId).Nodup
  count : calls.length ≤ maxConcurrent
  distinct : ∀ call ∈ calls, call.participants.Nodup
  occupied : ∀ call ∈ calls, call.participants ≠ []
  seats : ∀ call ∈ calls, call.participants.length ≤ maxParticipantsPerCall
  offered : ∀ call ∈ calls, ∀ id ∈ call.participants, Offered past call.callId call.group id

variable {past : List (Nat × Action)} {callId group : Bytes} {connection : ConnectionId}
  {found : Call}

theorem Shaped.eq_found (h : Shaped maxConcurrent past calls)
    (hfound : Table.lookup Call.callId calls callId = some found) {call} (hcall : call ∈ calls)
    (hid : call.callId = callId) : call = found :=
  inj_on_of_nodup_map h.ids hcall (Table.mem_of_lookup hfound)
    (hid.trans (Table.key_of_lookup hfound).symm)

/-- Connections leave calls, and calls leave the table. -/
theorem Shaped.shrink (h : Shaped maxConcurrent past calls) {f : Call → Call} {left : List Call}
    (hf : ∀ call, (f call).callId = call.callId ∧ (f call).group = call.group ∧
      (f call).participants <+ call.participants) (hleft : left <+ calls.map f)
    (hocc : ∀ call ∈ left, call.participants ≠ []) : Shaped maxConcurrent past left := by
  have hold : ∀ call ∈ left, ∃ old ∈ calls, f old = call := fun call hcall =>
    mem_map.mp (hleft.subset hcall)
  have hids : (calls.map f).map Call.callId = calls.map Call.callId := by simp [(hf _).1]
  refine ⟨(hids ▸ h.ids).sublist (hleft.map _), ?_, ?_, hocc, ?_, ?_⟩
  · exact (hleft.length_le.trans_eq (length_map f)).trans h.count
  · intro call hcall
    obtain ⟨old, hold, rfl⟩ := hold call hcall
    exact (h.distinct old hold).sublist (hf old).2.2
  · intro call hcall
    obtain ⟨old, hold, rfl⟩ := hold call hcall
    exact (hf old).2.2.length_le.trans (h.seats old hold)
  · intro call hcall id hid
    obtain ⟨old, hold, rfl⟩ := hold call hcall
    rw [(hf old).1, (hf old).2.1]
    exact h.offered old hold id ((hf old).2.2.subset hid)

theorem Shaped.dropIdle (h : Shaped maxConcurrent past calls) :
    Shaped maxConcurrent past (dropIdle now calls) := by
  refine h.shrink (f := id) (fun _ => ⟨rfl, rfl, .refl _⟩) ?_ fun call hcall => ?_
  · rw [map_id]
    exact filter_sublist
  · exact h.occupied call (mem_of_mem_filter hcall)

/-- A connection that was not in the call enters it while it has room. -/
theorem Shaped.enter (h : Shaped maxConcurrent past calls)
    (hfound : Table.lookup Call.callId calls callId = some found)
    (hnew : connection ∉ found.participants)
    (hroom : found.participants.length < maxParticipantsPerCall)
    (hoff : Offered past callId found.group connection) :
    Shaped maxConcurrent past (Table.modify Call.callId calls callId (fun call =>
      { call with participants := call.participants ++ [connection], lastActivity := now })) := by
  refine ⟨Table.nodup_map_modify (fun _ => rfl) h.ids, (length_map _).trans_le h.count,
    Table.forall_mem_modify h.distinct fun call hcall hid => ?_,
    Table.forall_mem_modify h.occupied fun _ _ _ => append_ne_nil_of_right_ne_nil _ nofun,
    Table.forall_mem_modify h.seats fun call hcall hid => ?_,
    Table.forall_mem_modify h.offered fun call hcall hid => ?_⟩
  · obtain rfl := h.eq_found hfound hcall hid
    exact (h.distinct call hcall).append (nodup_singleton _) (by simpa using hnew)
  · obtain rfl := h.eq_found hfound hcall hid
    rw [length_append]
    exact hroom
  · obtain rfl := h.eq_found hfound hcall hid
    exact forall_mem_snoc (h.offered call hcall) (hid.symm ▸ hoff)

/-- A connection opens a call under an id that is not in use. -/
theorem Shaped.add (h : Shaped maxConcurrent past calls)
    (hfree : Table.lookup Call.callId calls callId = none) (hroom : calls.length < maxConcurrent)
    (hoff : Offered past callId group connection) :
    Shaped maxConcurrent past (calls ++ [⟨callId, group, [connection], now⟩]) := by
  refine ⟨Table.nodup_map_snoc h.ids fun call hcall => Table.ne_of_lookup_eq_none hfree hcall, ?_,
    forall_mem_snoc h.distinct (nodup_singleton _), forall_mem_snoc h.occupied nofun,
    forall_mem_snoc h.seats (Nat.le_add_left 1 4), forall_mem_snoc h.offered ?_⟩
  · rw [length_append]
    exact hroom
  · exact forall_mem_singleton.mpr hoff

theorem Shaped.apply (h : Shaped maxConcurrent past calls) :
    Shaped maxConcurrent (past ++ [(now, action)]) (action.apply maxConcurrent now calls) := by
  replace h : Shaped maxConcurrent (past ++ [(now, action)]) calls := { h with
    offered := fun call hcall id hid =>
      (h.offered call hcall id hid).imp fun _ => mem_append_left _ }
  cases action with
  | dropIdle => exact h.dropIdle
  | forget connection =>
    refine h.shrink (fun _ => ?_) filter_sublist fun call hcall => ?_
    · exact ⟨rfl, rfl, filter_sublist⟩
    · exact of_decide_eq_true (mem_filter.mp hcall).2
  | leave callId connection =>
    refine h.shrink (fun call => ?_) filter_sublist fun call hcall => ?_
    · split
      · exact ⟨rfl, rfl, filter_sublist⟩
      · exact ⟨rfl, rfl, .refl _⟩
    · obtain ⟨hcall, hkept⟩ := mem_filter.mp hcall
      obtain ⟨old, hold, rfl⟩ := Table.mem_modify.mp hcall
      rcases of_decide_eq_true hkept with hne | hocc
      · split at hne
        next hid => exact absurd hid hne
        next hid => rw [if_neg hid]; exact h.occupied old hold
      · exact hocc
  | route callId connection queued =>
    rw [Action.apply, Calls.route]
    split
    · exact h
    next found hfound =>
      split_ifs with hin
      · refine h.shrink (fun call => ?_) (.refl _) ?_
        · split
          · exact ⟨rfl, rfl, filter_sublist⟩
          · exact ⟨rfl, rfl, .refl _⟩
        · -- The sender is in the call and stays.
          refine Table.forall_mem_modify h.occupied fun call hcall hid => ?_
          obtain rfl := h.eq_found hfound hcall hid
          exact ne_nil_of_mem (mem_filter.mpr ⟨by simpa using hin, by simp⟩)
      · exact h
  | join callId group connection =>
    have hoff : Offered (past ++ [(now, .join callId group connection)]) callId group connection :=
      ⟨now, by simp⟩
    replace h : Shaped _ _ (Calls.dropIdle now calls) := h.dropIdle
    simp only [Action.apply, Calls.join]
    split
    next found hfound =>
      split_ifs with hgroup hin hfull
      · exact h
      · exact h
      · exact h
      · rw [not_not] at hgroup
        exact h.enter hfound (by simpa using hin) (not_le.mp hfull) (hgroup.symm ▸ hoff)
    next hfree =>
      split_ifs with hmany hshare
      · exact h
      · exact h
      · exact h.add hfree (not_le.mp hmany) hoff

end Shape

/-- Whatever connections and clock do, there are never more calls than may be open, and only
connections that have offered to join a call for its own group are in it, at most five of them
and each once. -/
theorem call_holds_who_offered
    {labels r}
    (hrun : Run (Step maxConcurrent) start labels r) :
    Shaped maxConcurrent labels r.calls := by
  refine Run.history ⟨List.nodup_nil, Nat.zero_le _, nofun, nofun, nofun, nofun⟩ ?_ hrun
  rintro past r label _ - h ⟨⟩
  exact h.apply

theorem opened_call_shaped : Shaped 4 [(0, .join (id16 7) (id32 8) 1)] opened.calls :=
  call_holds_who_offered opened_run.1

end WealdRelay.Calls
