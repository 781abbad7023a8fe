import Mathlib.Algebra.Order.Group.Int
import Mathlib.Data.Multiset.AddSub
import WealdRelay.Lib.Run

/-!
# The restore marker

One row counts the collector passes whose storage-listing sweep a database restore
suppresses. A restore sets it, an operator may clear it, and each pass spends one of its
count: `consume_one` reads the row and then, in a second statement, deletes it or counts it
down. Any number of calls overlap, and every statement may fail.
-/

namespace WealdRelay.Media.Marker

open Multiset
open Lib

/-- The row's `passes_remaining`, and what each `consume_one` between its statements read. -/
structure State where
  passesRemaining : Option Int
  reading : Multiset Int

/-- A call that starts, or the second statement of a `consume_one`. -/
inductive Call where
  | set (passes : Int)
  | clear
  | consumeOne
  | countDown

def remaining (row : Option Int) : Option Int := row.filter (fun passes => 0 < passes)

/-- What `consume_one` writes after it read `before`. The column refuses a negative count. -/
def spend (before : Int) (row : Option Int) : Option Int :=
  if before ≤ 1 then none else row.map (fun passes => if 0 ≤ passes - 1 then passes - 1 else passes)

inductive Step : State → Call → State → Prop
  | set {row reading} (passes : Int) :
      Step ⟨row, reading⟩ (.set passes) ⟨some (max passes 0), reading⟩
  | clear {row reading} : Step ⟨row, reading⟩ .clear ⟨none, reading⟩
  | notCleared {s} : Step s .clear s
  | read {row reading before} (h : remaining row = some before) :
    Step ⟨row, reading⟩ .consumeOne ⟨row, before ::ₘ reading⟩
  -- Nothing to spend, or the row could not be read.
  | skip {s} : Step s .consumeOne s
  | write {row reading before} :
    Step ⟨row, before ::ₘ reading⟩ .countDown ⟨spend before row, reading⟩
  | notWritten {row reading before} : Step ⟨row, before ::ₘ reading⟩ .countDown ⟨row, reading⟩

/-- What the last `set` asked for, less the `consume_one` calls started since; a `clear`
ends it, and a later `set` replaces it. -/
def owe (count : Int) : Call → Int
  | .set passes => passes
  | .clear => 0
  | .consumeOne => count - 1
  | .countDown => count

def owed (calls : List Call) : Int := calls.foldl owe 0

/-- No `set` while a `consume_one` is between its statements. -/
def Undisturbed (s : State) : Call → Prop
  | .set _ => s.reading = 0
  | _ => True

/-- The row, and every count read of it, cover what is owed and the calls still to write. -/
def Lasts (count : Int) (s : State) : Prop :=
  0 < count → ∃ passes, s.passesRemaining = some passes ∧
    ∀ n ∈ passes ::ₘ s.reading, count + card s.reading ≤ n

variable {s t : State} {call : Call} {calls : List Call} {count less : Int} {row : Option Int}
  {reading fewer : Multiset Int}

theorem Lasts.lower (h : Lasts count ⟨row, reading⟩) (hcount : less ≤ count)
    (hreading : fewer ≤ reading) : Lasts less ⟨row, fewer⟩ := by
  intro hpos
  obtain ⟨passes, hrow, hall⟩ := h (lt_of_lt_of_le hpos hcount)
  refine ⟨passes, hrow, fun n hn => le_trans ?_ (hall n (mem_of_le (cons_le_cons _ hreading) hn))⟩
  have hcard := card_le_card hreading
  dsimp only
  omega

theorem Lasts.step (h : Lasts count s) (hcalm : Undisturbed s call) (hs : Step s call t) :
    Lasts (owe count call) t := by
  cases hs with
  | set passes =>
    obtain rfl : _ = 0 := hcalm
    exact fun _ => ⟨_, rfl, by simp [owe]⟩
  | clear | notCleared => exact fun hpos => absurd hpos (lt_irrefl _)
  | @read row reading b hread =>
    intro hpos
    obtain ⟨passes, hrow, hall⟩ := h (hpos.trans (Int.pred_self_lt count))
    -- What is read is the row's own count.
    obtain ⟨heq, -⟩ := Option.filter_eq_some_iff.mp hread
    obtain rfl : passes = b := Option.some.inj (hrow.symm.trans heq)
    refine ⟨passes, hrow, fun n hn => le_trans (le_of_eq ?_) (hall n (by simpa using hn))⟩
    simp only [owe, card_cons]
    omega
  | skip => exact h.lower (Int.pred_self_lt count).le le_rfl
  | @write row reading b =>
    intro hpos
    obtain ⟨passes, rfl, hall⟩ := h hpos
    -- What this call read leaves room for what is owed beside it, so it counts down.
    have hb := hall b (by simp)
    have hpasses := hall passes (by simp)
    simp only [card_cons, owe] at hall hb hpasses hpos
    refine ⟨passes - 1, ?_, ?_⟩
    · rw [spend, if_neg (by omega), Option.map_some, if_pos (by omega)]
    · intro n hn
      dsimp only [owe]
      rcases mem_cons.mp hn with rfl | hn
      · omega
      · have hle := hall n (mem_cons_of_mem (mem_cons_of_mem hn))
        omega
  | notWritten => exact h.lower le_rfl (le_cons_self _ _)

/-- Where no restore sets the marker between the two statements of a pass, the marker stands
as long as the last restore asked for. -/
theorem marker_lasts
    {start : State}
    (h : Run (fun s call t => Step s call t ∧ Undisturbed s call) start calls s)
    (howed : 0 < owed calls) :
    (remaining s.passesRemaining).isSome := by
  have hlasts : Lasts (owed calls) s := by
    refine h.history (fun hpos => absurd hpos (lt_irrefl _)) fun calls _ call _ _ ih hs => ?_
    rw [owed, List.foldl_append]
    exact ih.step hs.2 hs.1
  obtain ⟨passes, hrow, hall⟩ := hlasts howed
  have hpasses := hall passes (by simp)
  have hpos : 0 < passes := by omega
  simp [remaining, hrow, Option.filter, hpos]

/-- Two passes asked for, one spent. -/
theorem marker_lasts_after_one : (remaining (spend 2 (some 2))).isSome := by
  have hrun : Run (fun s call t => Step s call t ∧ Undisturbed s call) ⟨none, 0⟩
      [.set 2, .consumeOne, .countDown] ⟨spend 2 (some 2), 0⟩ :=
    .cons ⟨.set 2, rfl⟩ (.cons ⟨.read rfl, trivial⟩ (.cons ⟨.write, trivial⟩ (.nil _)))
  exact marker_lasts hrun (by decide)

/-- A pass reads the last count of one restore, a second restore asks for four passes, and the
pass deletes what the second one wrote. -/
theorem second_restore_unprotected :
    ∃ s, Run Step ⟨none, 0⟩ [.set 1, .consumeOne, .set 4, .countDown] s ∧
      owed [.set 1, .consumeOne, .set 4, .countDown] = 4 ∧ remaining s.passesRemaining = none :=
  ⟨⟨none, 0⟩, .cons (.set 1) (.cons (.read rfl) (.cons (.set 4) (.cons .write (.nil _)))), rfl, rfl⟩

end WealdRelay.Media.Marker
