import Chronicle.Proofs.Success
import Mathlib.Logic.Function.Iterate

/-!
# Walks in turns

A walk calls other walks.  Work up to its next call is a turn: it ends, or it
waits for the outcome of a call.  Turns are taken on a stack of what waits, with
a count of the levels that are open and a list of the objects that are being
walked, so that every moment of a walk can be looked at, and not its outcome
alone.
-/

namespace Chronicle

open Success

/-- How a walk is called: on the same level, one level deeper, or one level
deeper into an object. -/
inductive Way where
  | along
  | down
  | into (id : Nat)
  deriving DecidableEq, Repr

def Way.opens : Way → Bool
  | .along => false
  | .down | .into _ => true

def Way.object? : Way → Option Nat
  | .into id => some id
  | .along | .down => none

@[simp] theorem Way.opens_along : along.opens = false := rfl

@[simp] theorem Way.opens_down : down.opens = true := rfl

@[simp] theorem Way.opens_into (id : Nat) : (into id).opens = true := rfl

@[simp] theorem Way.object?_along : along.object? = none := rfl

@[simp] theorem Way.object?_down : down.object? = none := rfl

@[simp] theorem Way.object?_into (id : Nat) : (into id).object? = some id := rfl

inductive Turn (γ σ ε α ω : Type) where
  | ends (outcome : ω)
  | calls (way : Way) (goal : γ) (s : σ) (resume : EStateM.Result ε σ α → Turn γ σ ε α ω)

variable {γ σ ε α : Type}

namespace Turn

variable {ω ω' ω'' : Type}

def thenDo (f : ω → Turn γ σ ε α ω') : Turn γ σ ε α ω → Turn γ σ ε α ω'
  | .ends outcome => f outcome
  | .calls way goal s resume => .calls way goal s fun answer => thenDo f (resume answer)

def run (answer : Way → γ → EStateM ε σ α) : Turn γ σ ε α ω → ω
  | .ends outcome => outcome
  | .calls way goal s resume => run answer (resume (answer way goal s))

@[simp] theorem run_thenDo (answer : Way → γ → EStateM ε σ α) (f : ω → Turn γ σ ε α ω')
    (turn : Turn γ σ ε α ω) : (turn.thenDo f).run answer = (f (turn.run answer)).run answer := by
  induction turn with
  | ends outcome => rfl
  | calls way goal s resume ih => exact ih _

def state {δ β : Type} : Turn γ σ ε α (EStateM.Result δ σ β) → σ
  | .ends outcome => finalState outcome
  | .calls _ _ s _ => s

end Turn

def Pending (γ σ ε α δ β : Type) : Type := σ → Turn γ σ ε α (EStateM.Result δ σ β)

namespace Pending

variable {δ δ' β β' : Type}

def lift (act : EStateM δ σ β) : Pending γ σ ε α δ β := fun s => .ends (act s)

def call (way : Way) (goal : γ) : Pending γ σ ε α ε α := fun s => .calls way goal s .ends

protected def bind (x : Pending γ σ ε α δ β) (f : β → Pending γ σ ε α δ β') :
    Pending γ σ ε α δ β' := fun s =>
  (x s).thenDo fun
    | .ok a t => f a t
    | .error e t => .ends (.error e t)

instance : Monad (Pending γ σ ε α δ) where
  pure a := lift (pure a)
  bind := Pending.bind

theorem lift_bind_of_ok {act : EStateM δ σ β} {s t : σ} {a : β} (run : act s = .ok a t)
    (f : β → Pending γ σ ε α δ β') : (lift act >>= f) s = f a t := by
  change Pending.bind (lift act) f s = _
  rw [Pending.bind, lift, run]
  rfl

theorem lift_bind_of_error {act : EStateM δ σ β} {s t : σ} {e : δ} (run : act s = .error e t)
    (f : β → Pending γ σ ε α δ β') : (lift act >>= f) s = .ends (.error e t) := by
  change Pending.bind (lift act) f s = _
  rw [Pending.bind, lift, run]
  rfl

def relabel (g : δ → δ') (x : Pending γ σ ε α δ β) : Pending γ σ ε α δ' β := fun s =>
  (x s).thenDo fun
    | .ok a t => .ends (.ok a t)
    | .error e t => .ends (.error (g e) t)

def run (answer : Way → γ → EStateM ε σ α) (x : Pending γ σ ε α δ β) : EStateM δ σ β :=
  fun s => (x s).run answer

section Run

variable (answer : Way → γ → EStateM ε σ α)

@[simp] theorem run_lift (act : EStateM δ σ β) :
    (lift act : Pending γ σ ε α δ β).run answer = act := rfl

@[simp] theorem run_pure (a : β) : (pure a : Pending γ σ ε α δ β).run answer = pure a := rfl

@[simp] theorem run_call (way : Way) (goal : γ) :
    (call way goal : Pending γ σ ε α ε α).run answer = answer way goal := rfl

@[simp] theorem run_bind (x : Pending γ σ ε α δ β) (f : β → Pending γ σ ε α δ β') :
    (x >>= f).run answer = x.run answer >>= fun a => (f a).run answer := by
  funext s
  change ((x s).thenDo _).run answer = EStateM.bind (x.run answer) _ s
  rw [Turn.run_thenDo]
  unfold EStateM.bind run
  cases (x s).run answer <;> rfl

end Run

end Pending

/-! ## Moments -/

/-- What a walk does when it is called, and what it says of calls that are not
made: those without a level left, and those into an object that is being walked,
if that is an error. -/
structure Calls (γ σ ε α : Type) where
  body : γ → Pending γ σ ε α ε α
  limit : Nat
  tooDeep : γ → ε
  taken : γ → Option ε

structure Frame (γ σ ε α : Type) where
  way : Way
  resume : EStateM.Result ε σ α → Turn γ σ ε α (EStateM.Result ε σ α)

structure Moment (γ σ ε α : Type) where
  /-- The number of levels that are open. -/
  depth : Nat := 0
  /-- The objects that are being walked, the innermost first. -/
  entered : List Nat := []
  stack : List (Frame γ σ ε α) := []
  turn : Turn γ σ ε α (EStateM.Result ε σ α)

namespace Moment

variable (m : Moment γ σ ε α)

def enter (way : Way) : Moment γ σ ε α :=
  match way with
  | .along => m
  | .down => { m with depth := m.depth + 1 }
  | .into id => { m with depth := m.depth + 1, entered := id :: m.entered }

def leave (way : Way) : Moment γ σ ε α :=
  match way with
  | .along => m
  | .down => { m with depth := m.depth - 1 }
  | .into _ => { m with depth := m.depth - 1, entered := m.entered.tail }

def Over : Prop := m.stack = [] ∧ ∃ outcome, m.turn = .ends outcome

end Moment

namespace Calls

variable (w : Calls γ σ ε α)

def clash (m : Moment γ σ ε α) (goal : γ) : Way → Option ε
  | .into id => if id ∈ m.entered then w.taken goal else none
  | .along | .down => none

def refusal (m : Moment γ σ ε α) (way : Way) (goal : γ) : Option ε :=
  match w.clash m goal way with
  | some e => some e
  | none => if way.opens && w.limit ≤ m.depth then some (w.tooDeep goal) else none

/-- The next moment: a call is made or refused, or a turn that ended is reported
to the one that waits for it. -/
def step (m : Moment γ σ ε α) : Moment γ σ ε α :=
  match m.turn with
  | .ends outcome =>
      match m.stack with
      | [] => m
      | frame :: stack => { m.leave frame.way with stack, turn := frame.resume outcome }
  | .calls way goal s resume =>
      match w.refusal m way goal with
      | some e => { m with turn := resume (.error e s) }
      | none => { m.enter way with stack := ⟨way, resume⟩ :: m.stack, turn := w.body goal s }

def answer (eval : Nat → γ → EStateM ε σ α) : Nat → Way → γ → EStateM ε σ α
  | n, .along, goal => eval n goal
  | 0, .down, goal | 0, .into _, goal => throw (w.tooDeep goal)
  | n + 1, .down, goal | n + 1, .into _, goal => eval n goal

def Answers (eval : Nat → γ → EStateM ε σ α) : Prop :=
  ∀ n goal, (w.body goal).run (w.answer eval n) = eval n goal

end Calls

/-! ## What a walk may rely on -/

/-- How states may follow each other, which objects were met, which objects a state
takes to be walked, and what the work that is left may cost. -/
structure Ledger (γ σ : Type) where
  Later : σ → σ → Prop
  refl : ∀ s, Later s s
  trans : ∀ {s t u}, Later s t → Later t u → Later s u
  Met : σ → Nat → Prop
  met_of_later : ∀ {s t id}, Later s t → Met s id → Met t id
  Held : σ → List Nat → Prop
  fuel : σ → Nat
  fuel_le : ∀ {s t}, Later s t → fuel t ≤ fuel s
  price : γ → Nat

namespace Ledger

def Opens (l : Ledger γ σ) (s t : σ) : Way → Prop
  | .into id => ¬ l.Met s id ∧ l.Met t id
  | .along | .down => True

structure Calm (l : Ledger γ σ) (s t : σ) : Prop where
  later : l.Later s t
  held : ∀ entered, l.Held s entered → l.Held t entered

theorem Calm.refl (l : Ledger γ σ) (s : σ) : l.Calm s s := ⟨l.refl s, fun _ held => held⟩

theorem Calm.trans {l : Ledger γ σ} {s t u : σ} (first : l.Calm s t) (second : l.Calm t u) :
    l.Calm s u :=
  ⟨l.trans first.later second.later, fun _ held => second.held _ (first.held _ held)⟩

end Ledger

def Way.enter (way : Way) (entered : List Nat) : List Nat :=
  way.object?.toList ++ entered

variable {l : Ledger γ σ} {entered : List Nat} {s t : σ} {b c n : Nat}

/-- A turn taken from a state with some objects entered, with a budget for the calls
it makes and the fuel it leaves. -/
inductive Turn.Sound (l : Ledger γ σ) {δ β : Type} (entered : List Nat) :
    σ → Nat → Turn γ σ ε α (EStateM.Result δ σ β) → Prop
  | ends {s : σ} {b : Nat} {outcome : EStateM.Result δ σ β} :
      l.Later s (finalState outcome) → l.Held (finalState outcome) entered →
      l.fuel (finalState outcome) ≤ b → Sound l entered s b (.ends outcome)
  | calls {s t : σ} {b : Nat} {way : Way} {goal : γ}
      {resume : EStateM.Result ε σ α → Turn γ σ ε α (EStateM.Result δ σ β)} (rest : Nat) :
      l.Later s t → l.Opens s t way → l.Held t (way.enter entered) →
      l.fuel t + l.price goal + rest + 2 ≤ b →
      (∀ answer, l.Later t (finalState answer) →
        l.Held (finalState answer) (way.enter entered) →
        Sound l entered (finalState answer) (l.fuel (finalState answer) + rest)
          (resume answer)) →
      Sound l entered s b (.calls way goal t resume)

namespace Turn

def entering {ω : Type} : Turn γ σ ε α ω → List Nat
  | .ends _ => []
  | .calls way _ _ _ => way.object?.toList

namespace Sound

variable {δ δ' β β' : Type}

theorem later {turn : Turn γ σ ε α (EStateM.Result δ σ β)} (sound : turn.Sound l entered s b) :
    l.Later s turn.state := by
  cases sound with
  | ends later => exact later
  | calls _ later => exact later

theorem held {turn : Turn γ σ ε α (EStateM.Result δ σ β)} (sound : turn.Sound l entered s b) :
    l.Held turn.state (turn.entering ++ entered) := by
  cases sound with
  | ends _ held => exact held
  | calls _ _ _ held => exact held

theorem mono {turn : Turn γ σ ε α (EStateM.Result δ σ β)} (sound : turn.Sound l entered s b)
    (more : b ≤ c) : turn.Sound l entered s c := by
  cases sound with
  | ends later held fuel => exact .ends later held (by omega)
  | calls rest later opens held price next =>
      exact .calls rest later opens held (by omega) next

theorem earlier {turn : Turn γ σ ε α (EStateM.Result δ σ β)} (before : l.Later s t)
    (sound : turn.Sound l entered t b) : turn.Sound l entered s b := by
  cases sound with
  | ends later held fuel => exact .ends (l.trans before later) held fuel
  | @calls _ u _ way _ _ rest later opens held price next =>
      refine .calls rest (l.trans before later) ?_ held price next
      cases way with
      | into id => exact ⟨fun met => opens.1 (l.met_of_later before met), opens.2⟩
      | _ => trivial

theorem thenDo {turn : Turn γ σ ε α (EStateM.Result δ σ β)}
    {f : EStateM.Result δ σ β → Turn γ σ ε α (EStateM.Result δ' σ β')}
    (sound : turn.Sound l entered s b)
    (next : ∀ outcome, l.Later s (finalState outcome) → l.Held (finalState outcome) entered →
      (f outcome).Sound l entered (finalState outcome) (l.fuel (finalState outcome) + c)) :
    (turn.thenDo f).Sound l entered s (b + c) := by
  induction sound with
  | ends later held fuel => exact .earlier later ((next _ later held).mono (by omega))
  | calls rest later opens held price _ ih =>
      refine .calls (rest + c) later opens held (by omega) fun answer after held' => ?_
      have inner := ih answer after held' fun outcome last =>
        next outcome (l.trans (l.trans later after) last)
      exact inner.mono (by omega)

theorem lift_bind {act : EStateM δ σ β} {f : β → Pending γ σ ε α δ β'}
    (calm : l.Calm s (finalState (act t))) (held : l.Held s entered) (fuel : l.fuel s ≤ b)
    (rest : ∀ a u, act t = .ok a u → l.Calm s u → (f a u).Sound l entered s b) :
    ((Pending.lift act >>= f) t).Sound l entered s b := by
  cases run : act t with
  | error e u =>
      rw [run] at calm
      rw [Pending.lift_bind_of_error run]
      exact .ends calm.later (calm.held _ held) (Nat.le_trans (l.fuel_le calm.later) fuel)
  | ok a u =>
      rw [run] at calm
      rw [Pending.lift_bind_of_ok run]
      exact rest a u run calm

end Sound

end Turn

def Pending.Sound (l : Ledger γ σ) {δ β : Type} (cost : Nat) (x : Pending γ σ ε α δ β) : Prop :=
  ∀ s entered, l.Held s entered → (x s).Sound l entered s (l.fuel s + cost)

namespace Pending.Sound

variable {δ δ' β β' : Type}

theorem mono {x : Pending γ σ ε α δ β} (sound : x.Sound l b) (more : b ≤ c) : x.Sound l c :=
  fun s entered held => (sound s entered held).mono (by omega)

theorem lift {act : EStateM δ σ β} (calm : ∀ s, l.Calm s (finalState (act s))) :
    (Pending.lift act : Pending γ σ ε α δ β).Sound l 0 :=
  fun s _ held => .ends (calm s).later ((calm s).held _ held) (l.fuel_le (calm s).later)

theorem pure (a : β) : (Pure.pure a : Pending γ σ ε α δ β).Sound l c :=
  mono (.lift (.refl l)) (Nat.zero_le c)

theorem throw (e : δ) :
    (Pending.lift (MonadExcept.throw e) : Pending γ σ ε α δ β).Sound l c :=
  mono (.lift (.refl l)) (Nat.zero_le c)

theorem bind {x : Pending γ σ ε α δ β} {f : β → Pending γ σ ε α δ β'} (first : x.Sound l b)
    (rest : ∀ a, (f a).Sound l c) : (x >>= f).Sound l (b + c) := by
  intro s entered held
  refine ((first s entered held).thenDo (c := c) fun outcome _ held => ?_).mono (by omega)
  cases outcome with
  | ok a t => exact rest a t entered held
  | error e t => exact .ends (l.refl t) held (Nat.le_add_right _ _)

theorem relabel {x : Pending γ σ ε α δ β} (g : δ → δ') (sound : x.Sound l c) :
    (x.relabel g).Sound l c := by
  intro s entered held
  refine (sound s entered held).thenDo (c := 0) fun outcome _ held => ?_
  cases outcome <;> exact .ends (l.refl _) held (Nat.le_refl _)

theorem spend {act : EStateM δ σ β} {f : β → Pending γ σ ε α δ β'}
    (calm : ∀ s, l.Calm s (finalState (act s)))
    (rest : ∀ s a t, act s = .ok a t →
      ∃ b, l.fuel t + b ≤ l.fuel s ∧ (f a).Sound l (b + c)) :
    (Pending.lift act >>= f).Sound l c := by
  refine fun s entered held =>
    .lift_bind (calm s) held (Nat.le_add_right _ _) fun a t run after => ?_
  obtain ⟨b, paid, sound⟩ := rest s a t run
  exact .earlier after.later ((sound t entered (after.held _ held)).mono (by omega))

theorem call (goal : γ) {way : Way} (plain : way.object? = none) :
    (Pending.call way goal : Pending γ σ ε α ε α).Sound l (l.price goal + 2) := by
  intro s entered held
  have same : way.enter entered = entered := by rw [Way.enter, plain]; rfl
  rw [← same] at held
  refine .calls 0 (l.refl s) ?_ held (by omega) fun answer _ held => ?_
  case refine_2 =>
    rw [same] at held
    exact .ends (l.refl _) held (Nat.le_refl _)
  cases way with
  | into id => contradiction
  | _ => trivial

end Pending.Sound

def Calls.Keeps (w : Calls γ σ ε α) (l : Ledger γ σ) : Prop :=
  ∀ goal, (w.body goal).Sound l (l.price goal)

/-! ## Errors of a walk's own -/

/-- A turn whose errors, as long as it was answered without a bad one, are its own
and hold of the state they come with. -/
inductive Turn.Owns (bad : ε → Prop) {δ β : Type} (own : δ → σ → Prop) :
    Turn γ σ ε α (EStateM.Result δ σ β) → Prop
  | ends {outcome : EStateM.Result δ σ β} :
      (∀ e s, outcome = .error e s → own e s) → Owns bad own (.ends outcome)
  | calls {way : Way} {goal : γ} {s : σ}
      {resume : EStateM.Result ε σ α → Turn γ σ ε α (EStateM.Result δ σ β)} :
      (∀ answer, Avoids bad answer → Owns bad own (resume answer)) →
      Owns bad own (.calls way goal s resume)

def Pending.Owns (bad : ε → Prop) {δ β : Type} (own : δ → σ → Prop)
    (x : Pending γ σ ε α δ β) : Prop :=
  ∀ s, (x s).Owns bad own

section Owns

variable {bad : ε → Prop} {δ δ' β β' : Type} {own : δ → σ → Prop} {own' : δ' → σ → Prop}

theorem Turn.Owns.thenDo {turn : Turn γ σ ε α (EStateM.Result δ σ β)}
    {f : EStateM.Result δ σ β → Turn γ σ ε α (EStateM.Result δ' σ β')}
    (owns : turn.Owns bad own)
    (next : ∀ outcome, (∀ e s, outcome = .error e s → own e s) →
      (f outcome).Owns bad own') : (turn.thenDo f).Owns bad own' := by
  induction owns with
  | ends told => exact next _ told
  | calls _ ih => exact .calls ih

namespace Pending.Owns

theorem lift {act : EStateM δ σ β} (told : ∀ s e t, act s = .error e t → own e t) :
    (Pending.lift act : Pending γ σ ε α δ β).Owns bad own :=
  fun s => .ends (told s)

theorem pure (a : β) : (Pure.pure a : Pending γ σ ε α δ β).Owns bad own :=
  .lift fun _ _ _ failed => nomatch failed

theorem bind {x : Pending γ σ ε α δ β} {f : β → Pending γ σ ε α δ β'} (first : x.Owns bad own)
    (rest : ∀ a, (f a).Owns bad own) : (x >>= f).Owns bad own := by
  refine fun s => (first s).thenDo fun outcome told => ?_
  cases outcome with
  | ok a t => exact rest a t
  | error e t =>
      refine .ends fun e' s' same => ?_
      obtain ⟨rfl, rfl⟩ := EStateM.Result.error.inj same
      exact told e t rfl

theorem relabel {x : Pending γ σ ε α δ β} {g : δ → δ'} (same : ∀ e s, own e s → own' (g e) s)
    (owns : x.Owns bad own) : (x.relabel g).Owns bad own' := by
  refine fun s => (owns s).thenDo fun outcome told => ?_
  cases outcome with
  | ok a t => exact .ends fun _ _ failed => nomatch failed
  | error e t =>
      refine .ends fun e' s' failed => ?_
      obtain ⟨rfl, rfl⟩ := EStateM.Result.error.inj failed
      exact same e t (told e t rfl)

theorem call {own : ε → σ → Prop} (fine : ∀ e s, ¬ bad e → own e s) (way : Way) (goal : γ) :
    (Pending.call way goal : Pending γ σ ε α ε α).Owns bad own :=
  fun _ => .calls fun _ avoids => .ends fun e s failed => fine e s (avoids.not_bad failed)

end Pending.Owns

end Owns

end Chronicle
