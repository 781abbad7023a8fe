import WealdRelay.Lib.Procs

/-!
# Transactions as programs, alone and interleaved

A transaction is a program of statements. A statement looks at the store through the
transaction's own writes, may need locks, adds writes, and goes on with what it saw.
The writes reach the store together, at the commit; an aborted transaction leaves none.

* `Prog.alone` runs a program with nobody else about;
* `machine` interleaves any number of them, statement by statement, each with the locks
  it has taken, and lets any of them be rolled back at any moment;
* `Isolation` says what a transaction may rely on while it holds a set of locks, and
  `Isolation.Valid` is the rule of pre- and postconditions under that rely:
  `Valid.bind` and `Valid.weaken` build a program's proof, and
  `Isolation.Committable` is what it has to end in, also alone (`Valid.alone`);
* `Isolation.run` carries the invariant through every interleaving, and says that no
  statement about to run meets the condition that is watched for.
-/

namespace WealdRelay.Lib

universe u

/-- A transaction: answer and commit, give up, or run one statement and go on. The
statement's `trips` is a condition that is watched for and changes nothing. -/
inductive Prog (σ ω ρ ε α : Type u) : Type u
  | done (answer : α)
  | abort (reason : ε)
  | stmt (needs : σ → List ρ) (writes : σ → List ω) (trips : σ → Bool)
      (next : σ → Prog σ ω ρ ε α)

namespace Prog

variable {σ ω ρ ε α β : Type u}

/-- Go on with the answer. -/
def bind : Prog σ ω ρ ε α → (α → Prog σ ω ρ ε β) → Prog σ ω ρ ε β
  | done answer, f => f answer
  | abort reason, _ => abort reason
  | stmt needs writes trips next, f => stmt needs writes trips (fun s => (next s).bind f)

instance : Monad (Prog σ ω ρ ε) where
  pure := done
  bind := bind

variable (a : α) (p : Prog σ ω ρ ε α) (f : α → Prog σ ω ρ ε β) (s : σ)

@[simp] theorem pure_eq : (pure a : Prog σ ω ρ ε α) = done a := rfl

@[simp] theorem bind_eq : (p >>= f) = p.bind f := rfl

@[simp] theorem done_bind : (done a).bind f = f a := rfl

@[simp] theorem abort_bind (reason : ε) (f : α → Prog σ ω ρ ε β) :
    (abort reason : Prog σ ω ρ ε α).bind f = abort reason := rfl

/-- Make these writes, oldest first. -/
def settle (apply : ω → σ → σ) (writes : List ω) (s : σ) : σ :=
  writes.foldl (fun s write => apply write s) s

variable {apply : ω → σ → σ}

@[simp] theorem settle_nil : settle apply [] s = s := rfl

@[simp] theorem settle_append (wr more : List ω) (s : σ) :
    settle apply (wr ++ more) s = settle apply more (settle apply wr s) :=
  List.foldl_append

@[simp] theorem settle_cons (write : ω) (wr : List ω) (s : σ) :
    settle apply (write :: wr) s = settle apply wr (apply write s) := rfl

variable (apply) in
/-- Run a transaction with nobody else about: its answer and the store it commits, or
why it gave up. -/
def alone : Prog σ ω ρ ε α → σ → Except ε (α × σ)
  | done answer, s => .ok (answer, s)
  | abort reason, _ => .error reason
  | stmt _ writes _ next, s => alone (next s) (settle apply (writes s) s)

theorem alone_bind :
    (p.bind f).alone apply s = (p.alone apply s).bind (fun out => (f out.1).alone apply out.2) := by
  induction p generalizing s with
  | done a => rfl
  | abort reason => rfl
  | stmt needs wr trips next ih => exact ih s _

/-- A composed transaction that answers has answered in between. -/
theorem of_alone_bind {p : Prog σ ω ρ ε α} {f : α → Prog σ ω ρ ε β} {s : σ} {out : β × σ}
    (h : (p.bind f).alone apply s = .ok out) :
    ∃ a s', p.alone apply s = .ok (a, s') ∧ (f a).alone apply s' = .ok out := by
  rw [alone_bind] at h
  cases hp : p.alone apply s with
  | error reason => simp [hp, Except.bind] at h
  | ok middle =>
    rw [hp] at h
    exact ⟨middle.1, middle.2, rfl, h⟩

end Prog

/-! ## Interleaving -/

section Interleaving

variable {σ ω ρ ε κ : Type u}

/-- Where a process stands: between transactions, or inside one with the locks it holds,
the writes it has made and what is left to do. -/
inductive Stage (σ ω ρ ε : Type u) : Type u
  | idle
  | within (held : List ρ) (writes : List ω) (rest : Prog σ ω ρ ε PUnit)

/-- A turn: begin a transaction, run its next statement or commit, or roll back. -/
inductive Turn (κ : Type u) : Type u
  | begin (call : κ)
  | next
  | rollback

namespace Stage

/-- The locks of a stage. -/
def locks : Stage σ ω ρ ε → List ρ
  | idle => []
  | .within held _ _ => held

/-- The statement about to run meets the condition that is watched for. -/
def trips (apply : ω → σ → σ) (s : σ) : Stage σ ω ρ ε → Bool
  | .within _ writes (.stmt _ _ trips _) => trips (Prog.settle apply writes s)
  | _ => false

/-- The locks the next turn needs. -/
def needs (apply : ω → σ → σ) (s : σ) : Stage σ ω ρ ε → List ρ
  | .within _ writes (.stmt needs _ _ _) => needs (Prog.settle apply writes s)
  | _ => []

/-- Run the next statement, commit or give up. -/
def advance (apply : ω → σ → σ) (s : σ) : Stage σ ω ρ ε → Option (σ × Stage σ ω ρ ε)
  | idle => none
  | .within _ writes (.done _) => some (Prog.settle apply writes s, idle)
  | .within _ _ (.abort _) => some (s, idle)
  | .within held writes (.stmt needs more _ next) =>
    let view := Prog.settle apply writes s
    some (s, .within (held ++ needs view) (writes ++ more view) (next view))

end Stage

/-- One turn of a process whose transactions are the programs of `prog`. -/
def turn (apply : ω → σ → σ) (prog : κ → Prog σ ω ρ ε PUnit) :
    Turn κ → σ → Stage σ ω ρ ε → Option (σ × Stage σ ω ρ ε)
  | .begin call, s, .idle => some (s, .within [] [] (prog call))
  | .begin _, _, .within _ _ _ => none
  | .next, s, stage => stage.advance apply s
  | .rollback, _, .idle => none
  | .rollback, s, .within _ _ _ => some (s, .idle)

/-- The interleaving machine of a set of transactions. -/
def machine (apply : ω → σ → σ) (prog : κ → Prog σ ω ρ ε PUnit) :
    Machine σ (Stage σ ω ρ ε) (Turn κ) ρ where
  act := turn apply prog
  needs
    | .next, s, stage => stage.needs apply s
    | _, _, _ => []
  locks := Stage.locks
  locks_act := by
    intro i s a s' a' hact row hrow
    cases i with
    | begin call =>
      cases a with
      | idle =>
        cases hact
        cases hrow
      | within held writes rest => cases hact
    | rollback =>
      cases a with
      | idle => cases hact
      | within held writes rest =>
        cases hact
        cases hrow
    | next =>
      cases a with
      | idle => cases hact
      | within held writes rest =>
        cases rest with
        | done | abort =>
          cases hact
          cases hrow
        | stmt needs more trips next =>
          cases hact
          exact List.mem_append.mp hrow

end Interleaving

/-! ## What a transaction relies on -/

/-- What holds between transactions, and what a transaction that holds locks may rely on
while others commit. -/
structure Isolation (σ ω ρ : Type u) where
  apply : ω → σ → σ
  inv : σ → Prop
  rely : List ρ → σ → σ → Prop
  rely_refl : ∀ {held s}, inv s → rely held s s
  rely_trans : ∀ {held s t v}, rely held s t → rely held t v → rely held s v
  inv_of_rely : ∀ {held s t}, rely held s t → inv t

namespace Isolation

variable {σ ω ρ ε κ α β : Type u} (iso : Isolation σ ω ρ)

/-- These writes may be committed under these locks: they keep the invariant, and leave
alone what any other holder of locks relies on. -/
def Committable (held : List ρ) (writes : List ω) (s : σ) : Prop :=
  ∀ t, iso.rely held s t → iso.inv (Prog.settle iso.apply writes t) ∧
      ∀ others, (∀ row ∈ held, row ∉ others) → iso.rely others t (Prog.settle iso.apply writes t)

/-- However others commit in between, every statement of the program runs without
meeting what is watched for, and `Q` holds when the program answers. -/
def Valid (Q : α → List ρ → List ω → σ → Prop) : Prog σ ω ρ ε α → List ρ → List ω → σ → Prop
  | .done answer, held, writes, s => Q answer held writes s
  | .abort _, _, _, _ => True
  | .stmt needs more trips next, held, writes, s =>
    ∀ t, iso.rely held s t → trips (Prog.settle iso.apply writes t) = false ∧
        Valid Q (next (Prog.settle iso.apply writes t))
          (held ++ needs (Prog.settle iso.apply writes t))
          (writes ++ more (Prog.settle iso.apply writes t)) t

variable {iso} {Q Q' : α → List ρ → List ω → σ → Prop} {held : List ρ} {writes : List ω} {s t : σ}
  {p : Prog σ ω ρ ε α}

theorem Valid.weaken (h : iso.Valid Q p held writes s)
    (hQ : ∀ a held writes s, Q a held writes s → Q' a held writes s) :
    iso.Valid Q' p held writes s := by
  induction p generalizing held writes s with
  | done a => exact hQ _ _ _ _ h
  | abort reason => trivial
  | stmt needs more trips next ih =>
    intro t ht
    obtain ⟨htrips, hnext⟩ := h t ht
    exact ⟨htrips, ih _ hnext⟩

/-- The rule for one program after another. -/
theorem Valid.bind {Q : β → List ρ → List ω → σ → Prop} {f : α → Prog σ ω ρ ε β}
    (h : iso.Valid (fun a held writes s => iso.Valid Q (f a) held writes s) p held writes s) :
    iso.Valid Q (p.bind f) held writes s := by
  induction p generalizing held writes s with
  | done a => exact h
  | abort reason => trivial
  | stmt needs more trips next ih =>
    intro t ht
    obtain ⟨htrips, hnext⟩ := h t ht
    exact ⟨htrips, ih _ hnext⟩

/-- What a program is valid for stays so while others commit. -/
theorem Valid.mono (h : iso.Valid Q p held writes s)
    (hQ : ∀ a held writes s t, iso.rely held s t → Q a held writes s → Q a held writes t)
    (ht : iso.rely held s t) : iso.Valid Q p held writes t := by
  cases p with
  | done a => exact hQ a held writes s t ht h
  | abort reason => trivial
  | stmt needs more trips next => exact fun v hv => h v (iso.rely_trans ht hv)

/-- Alone, a valid program answers with what it is valid for. -/
theorem Valid.alone {a : α} {s' : σ} (h : iso.Valid Q p held writes s) (hs : iso.inv s)
    (hrun : p.alone iso.apply (Prog.settle iso.apply writes s) = .ok (a, s')) :
    ∃ held' writes', s' = Prog.settle iso.apply writes' s ∧ Q a held' writes' s := by
  induction p generalizing held writes with
  | done ans =>
    cases hrun
    exact ⟨held, writes, rfl, h⟩
  | abort reason => cases hrun
  | stmt needs more trips next ih =>
    refine ih _ (h s (iso.rely_refl hs)).2 ?_
    rw [Prog.settle_append]
    exact hrun

theorem Committable.mono (h : iso.Committable held writes s) (ht : iso.rely held s t) :
    iso.Committable held writes t :=
  fun v hv => h v (iso.rely_trans ht hv)

/-- The program runs to a commit that the invariant and every other transaction survive. -/
def Sound (iso : Isolation σ ω ρ) (p : Prog σ ω ρ ε PUnit) (held : List ρ) (writes : List ω)
    (s : σ) : Prop :=
  iso.Valid (fun _ held writes s => iso.Committable held writes s) p held writes s

theorem Sound.mono {p : Prog σ ω ρ ε PUnit} (h : iso.Sound p held writes s)
    (ht : iso.rely held s t) : iso.Sound p held writes t :=
  Valid.mono h (fun _ _ _ _ _ hrely hcomm => hcomm.mono hrely) ht

variable (iso) in
/-- What a stage relies on: the rest of its transaction is sound. -/
def Relies (s : σ) : Stage σ ω ρ ε → Prop
  | .idle => True
  | .within held writes rest => iso.Sound rest held writes s

variable {stage : Stage σ ω ρ ε} {prog : κ → Prog σ ω ρ ε PUnit}

theorem Relies.mono (h : iso.Relies s stage) (ht : iso.rely stage.locks s t) :
    iso.Relies t stage := by
  cases stage with
  | idle => trivial
  | within held writes rest => exact .mono h ht

theorem Relies.trips (h : iso.Relies s stage) (hs : iso.inv s) :
    stage.trips iso.apply s = false := by
  cases stage with
  | idle => rfl
  | within held writes rest =>
    cases rest with
    | done a => rfl
    | abort reason => rfl
    | stmt needs more trips next => exact (h s (iso.rely_refl hs)).1

/-- A turn of one process keeps the invariant and its own proof, and is one that every
process that shares no lock with it can bear. -/
theorem Relies.turn (hprog : ∀ call s, iso.inv s → iso.Sound (prog call) [] [] s) {i : Turn κ}
    {a a' : Stage σ ω ρ ε} (hs : iso.inv s) (ha : iso.Relies s a)
    (hact : turn iso.apply prog i s a = some (t, a')) :
    iso.inv t ∧ iso.Relies t a' ∧
      ∀ os, (∀ row ∈ a.locks, row ∉ os) → iso.rely os s t := by
  cases i with
  | begin call =>
    cases a with
    | idle =>
      cases hact
      exact ⟨hs, hprog call _ hs, fun _ _ => iso.rely_refl hs⟩
    | within held writes rest => cases hact
  | rollback =>
    cases a with
    | idle => cases hact
    | within held writes rest =>
      cases hact
      exact ⟨hs, trivial, fun _ _ => iso.rely_refl hs⟩
  | next =>
    cases a with
    | idle => cases hact
    | within held writes rest =>
      cases rest with
      | done ans =>
        cases hact
        obtain ⟨hinv, hothers⟩ := ha s (iso.rely_refl hs)
        exact ⟨hinv, trivial, hothers⟩
      | abort reason =>
        cases hact
        exact ⟨hs, trivial, fun _ _ => iso.rely_refl hs⟩
      | stmt needs more trips next =>
        cases hact
        exact ⟨hs, (ha _ (iso.rely_refl hs)).2, fun _ _ => iso.rely_refl hs⟩

/-- The invariant holds after every interleaving of sound transactions, and no statement
about to run meets what is watched for. -/
theorem run {π : Type u} [DecidableEq π]
    (hprog : ∀ call s, iso.inv s → iso.Sound (prog call) [] [] s)
    {w w' : World π σ (Stage σ ω ρ ε)} {labels : List (π × Turn κ)} (hstart : iso.inv w.store)
    (hidle : ∀ p, w.phase p = .idle) (hrun : Run (machine iso.apply prog).Step w labels w') :
    iso.inv w'.store ∧ ∀ p, (w'.phase p).trips iso.apply w'.store = false := by
  have hholds : (machine iso.apply prog).Holds iso.inv iso.Relies (fun _ _ => True) w :=
    .of_idle hidle rfl hstart trivial trivial
  have hend := Machine.Holds.run (R := fun _ _ _ _ => True) (fun _ _ h => h) (fun hs ha hact => by
      obtain ⟨hinv, hrel, -⟩ := Relies.turn hprog hs ha hact
      exact ⟨hinv, hrel⟩)
    (fun hbeside hact => by
      obtain ⟨-, -, hothers⟩ := Relies.turn hprog hbeside.store hbeside.mover hact
      exact ⟨hbeside.other.mono (hothers _ hbeside.held), trivial⟩)
    hholds (Machine.run_under hrun)
  exact ⟨hend.store, fun p => (hend.phase p).trips hend.store⟩

end Isolation
end WealdRelay.Lib
