import Mathlib.Data.Multiset.Count
import Mathlib.Logic.Relation

/-!
# Connection slots

A socket takes a slot before its upgrade. Under a ceiling the relay also counts, for each
source, the connections that have not authenticated: together they may take a quarter of
the slots. A socket gives this share back when `AUTH` completes, when its upgrade fails or
when it ends before; the slot goes back last.

A source is what `connection_source` makes of the address, one value for every socket without
one. The steps of the sockets interleave in any order. The table of sources is locked while
a socket is admitted and while one gives its share back, so each of these is one step.
-/

namespace WealdRelay.Connections

open Function Multiset Relation

/-- The counters of `RelayState`: the open connections, and those of each source that have
not authenticated. -/
structure Slots (κ : Type) where
  connections : Nat
  sources : κ → Option Nat

/-- How far a socket is. -/
inductive Phase where
  | upgrading
  | serving
  | authenticated
  | closing

def Phase.holdsSourceShare : Phase → Bool
  | upgrading | serving => true
  | authenticated | closing => false

structure Socket (κ : Type) where
  source : κ
  phase : Phase

variable {κ : Type} [DecidableEq κ] (ceiling : Option Nat)

namespace Slots

/-- No socket yet. -/
def start : Slots κ := ⟨0, fun _ => none⟩

variable (slots : Slots κ)

def admitConnection (source : κ) : Bool × Slots κ :=
  match ceiling with
  | none => (true, { slots with connections := slots.connections + 1 })
  | some ceiling =>
    let count := (slots.sources source).getD 0
    if max (ceiling / 4) 1 ≤ count then (false, slots)
    else if slots.connections < ceiling then
      (true, ⟨slots.connections + 1, update slots.sources source (some (count + 1))⟩)
    else (false, slots)

def releaseUnauthenticatedConnection (source : κ) : Slots κ :=
  match ceiling, slots.sources source with
  | some _, some count =>
    let left := if count - 1 = 0 then none else some (count - 1)
    ⟨slots.connections, update slots.sources source left⟩
  | _, _ => slots

def releaseConnection : Slots κ := { slots with connections := slots.connections - 1 }

end Slots

/-- One step of one socket, on the counters and the sockets. -/
inductive Step : Slots κ × Multiset (Socket κ) → Slots κ × Multiset (Socket κ) → Prop
  | enter {slots after sockets source} (h : slots.admitConnection ceiling source = (true, after)) :
    Step (slots, sockets) (after, ⟨source, .upgrading⟩ ::ₘ sockets)
  | refuse {slots after sockets source}
      (h : slots.admitConnection ceiling source = (false, after)) :
    Step (slots, sockets) (after, sockets)
  | upgrade {slots sockets source} :
    Step (slots, ⟨source, .upgrading⟩ ::ₘ sockets) (slots, ⟨source, .serving⟩ ::ₘ sockets)
  | authenticate {slots sockets source} : Step (slots, ⟨source, .serving⟩ ::ₘ sockets)
    (slots.releaseUnauthenticatedConnection ceiling source, ⟨source, .authenticated⟩ ::ₘ sockets)
  -- The upgrade fails, or the reader ends (a close, a deadline, an eviction) before `AUTH`
  -- completes.
  | giveUp {slots sockets source phase} (h : phase.holdsSourceShare) :
    Step (slots, ⟨source, phase⟩ ::ₘ sockets)
      (slots.releaseUnauthenticatedConnection ceiling source, ⟨source, .closing⟩ ::ₘ sockets)
  | close {slots sockets source phase} (h : phase.holdsSourceShare = false) :
    Step (slots, ⟨source, phase⟩ ::ₘ sockets) (slots.releaseConnection, sockets)

/-- The sockets of a source that have not given their share back. -/
def holding (sockets : Multiset (Socket κ)) (source : κ) : Nat :=
  sockets.countP fun socket => socket.phase.holdsSourceShare ∧ socket.source = source

/-- The counters count the sockets, within the ceiling. -/
structure Conserved (slots : Slots κ) (sockets : Multiset (Socket κ)) : Prop where
  connections : slots.connections = card sockets
  sources : ∀ source, slots.sources source =
    if ceiling = none ∨ holding sockets source = 0 then none else some (holding sockets source)
  within : ∀ most ∈ ceiling, card sockets ≤ most ∧
    ∀ source, holding sockets source ≤ max (most / 4) 1

variable {ceiling} {slots t : Slots κ} {sockets : Multiset (Socket κ)} {source : κ}
  {phase left : Phase}

theorem holding_cons (x : κ) : holding (⟨source, phase⟩ ::ₘ sockets) x =
    holding sockets x + if phase.holdsSourceShare ∧ source = x then 1 else 0 :=
  countP_cons _ _ _

theorem Conserved.enter (h : Conserved ceiling slots sockets)
    (henter : slots.admitConnection ceiling source = (true, t)) :
    Conserved ceiling t (⟨source, .upgrading⟩ ::ₘ sockets) := by
  obtain ⟨hconn, hsources, hin⟩ := h
  cases ceiling with
  | none =>
    cases henter
    exact ⟨by simp [hconn], by simpa using hsources, nofun⟩
  | some most =>
    have hn : (slots.sources source).getD 0 = holding sockets source := by
      rw [hsources]
      split <;> simp_all
    obtain ⟨hopen, hshare⟩ := hin most rfl
    simp only [Slots.admitConnection, hn] at henter
    split_ifs at henter with hfull hroom
    · cases henter
    · cases henter
      refine ⟨by simp [hconn], fun x => ?_, ?_⟩
      · by_cases heq : source = x
        · subst heq
          simp [holding_cons, Phase.holdsSourceShare]
        · simp [holding_cons, heq, Ne.symm heq, hsources]
      · rintro _ ⟨⟩
        refine ⟨by rw [card_cons]; omega, fun x => ?_⟩
        have ho := hshare x
        rw [holding_cons]
        split_ifs with hmatch
        · rw [← hmatch.2]
          omega
        · exact ho
    · cases henter

theorem Conserved.release (h : Conserved ceiling slots (⟨source, phase⟩ ::ₘ sockets))
    (hholds : phase.holdsSourceShare) (hleft : left.holdsSourceShare = false) :
    Conserved ceiling (slots.releaseUnauthenticatedConnection ceiling source)
      (⟨source, left⟩ ::ₘ sockets) := by
  obtain ⟨hconn, hsources, hin⟩ := h
  simp only [holding_cons, hholds, card_cons, true_and] at hconn hsources hin
  cases ceiling with
  | none =>
    exact ⟨by rwa [card_cons],
      by simpa [Slots.releaseUnauthenticatedConnection] using hsources, nofun⟩
  | some most =>
    have hsource : slots.sources source = some (holding sockets source + 1) := by
      simp [hsources]
    have hrel : slots.releaseUnauthenticatedConnection (some most) source =
        ⟨slots.connections, update slots.sources source (if holding sockets source = 0 then none
          else some (holding sockets source))⟩ := by
      simp [Slots.releaseUnauthenticatedConnection, hsource]
    rw [hrel]
    refine ⟨by rwa [card_cons], fun x => ?_, ?_⟩
    · by_cases heq : source = x
      · subst heq
        simp [holding_cons, hleft]
      · simp [holding_cons, hleft, hsources, heq, Ne.symm heq]
    · rintro _ ⟨⟩
      obtain ⟨hopen, hshare⟩ := hin most rfl
      refine ⟨by rwa [card_cons], fun x => ?_⟩
      have ho := hshare x
      simp only [holding_cons, hleft, Bool.false_eq_true, false_and, if_false]
      omega

theorem Conserved.step {r next : Slots κ × Multiset (Socket κ)} (hs : Step ceiling r next)
    (h : Conserved ceiling r.1 r.2) : Conserved ceiling next.1 next.2 := by
  cases hs with
  | enter henter => exact h.enter henter
  | refuse hrefuse =>
    cases ceiling with
    | none => cases hrefuse
    | some most =>
      simp only [Slots.admitConnection] at hrefuse
      split_ifs at hrefuse <;> cases hrefuse <;> exact h
  | upgrade =>
    obtain ⟨hconn, hsources, hin⟩ := h
    exact ⟨by simpa using hconn, by simpa [holding_cons, Phase.holdsSourceShare] using hsources,
      by simpa [holding_cons, Phase.holdsSourceShare] using hin⟩
  | authenticate => exact h.release rfl rfl
  | giveUp hholds => exact h.release hholds rfl
  | close hleft =>
    obtain ⟨hconn, hsources, hin⟩ := h
    simp only [holding_cons, hleft, card_cons, Bool.false_eq_true, false_and, if_false,
      Nat.add_zero] at hconn hsources hin
    refine ⟨?_, hsources, fun most hmost => ?_⟩
    · rw [Slots.releaseConnection, hconn, Nat.add_sub_cancel]
    · obtain ⟨hopen, hshare⟩ := hin most hmost
      exact ⟨Nat.le_of_succ_le hopen, hshare⟩

/-- The counters count the sockets in every state that is reached, within the ceiling and a
source's share of it, and nothing is left when the last socket has closed. -/
theorem slots_conserved
    {relay : Slots κ × Multiset (Socket κ)}
    (h : ReflTransGen (Step ceiling) (.start, 0) relay) :
    Conserved ceiling relay.1 relay.2 ∧ (relay.2 = 0 → relay.1 = .start) := by
  have hconserved : Conserved ceiling relay.1 relay.2 := by
    induction h with
    | refl => exact ⟨rfl, by simp [Slots.start, holding], by simp [holding]⟩
    | tail _ hs ih => exact ih.step hs
  refine ⟨hconserved, fun hnone => ?_⟩
  obtain ⟨⟨connections, sources⟩, sockets⟩ := relay
  obtain ⟨hconnections, hsources, -⟩ := hconserved
  subst hnone
  rw [Slots.start, Slots.mk.injEq]
  exact ⟨hconnections, funext fun source => by simpa [holding] using hsources source⟩

/-- A second socket of a source is refused until the first has authenticated, and nothing is left
when both have closed. -/
theorem slots_conserved_two_sockets : ∃ both last : Slots Unit,
    ReflTransGen (Step (some 4)) (.start, 0) (both, {⟨(), .upgrading⟩, ⟨(), .authenticated⟩}) ∧
      both.connections = 2 ∧ both.sources () = some 1 ∧
      Conserved (some 4) both {⟨(), .upgrading⟩, ⟨(), .authenticated⟩} ∧
      ReflTransGen (Step (some 4)) (.start, 0) (last, 0) ∧ last = .start := by
  have hfirst : ReflTransGen (Step (some 4)) ((.start : Slots Unit), 0)
      (_, {⟨(), .authenticated⟩}) :=
    (((ReflTransGen.single (.enter rfl)).tail (@Step.refuse _ _ _ _ _ _ () rfl)).tail
      .upgrade).tail .authenticate
  have hboth := hfirst.tail (@Step.enter _ _ _ _ _ _ () rfl)
  have hlast := ((hboth.tail (.giveUp rfl)).tail (.close rfl)).tail (.close rfl)
  exact ⟨_, _, hboth, rfl, rfl, (slots_conserved hboth).1, hlast, (slots_conserved hlast).2 rfl⟩

end WealdRelay.Connections
