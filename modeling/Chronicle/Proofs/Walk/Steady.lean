import Chronicle.Proofs.Codec.Consumption
import Chronicle.Proofs.Walk.Ending

/-!
# What a walk leaves alone

If nothing that a walk does by itself can break a property of its state, the state
has it at every moment.  The limit of a writer is such a property, so that each
length prefix of a snapshot is held to the limit the walk began with.
-/

namespace Chronicle

open Success

variable {γ σ ε α : Type} {P : σ → Prop}

/-- A turn that ends and calls in states with a property, as long as its calls are
answered in such states. -/
inductive Turn.Steady (P : σ → Prop) {δ β : Type} : Turn γ σ ε α (EStateM.Result δ σ β) → Prop
  | ends {outcome : EStateM.Result δ σ β} : P (finalState outcome) → Steady P (.ends outcome)
  | calls {way : Way} {goal : γ} {s : σ}
      {resume : EStateM.Result ε σ α → Turn γ σ ε α (EStateM.Result δ σ β)} : P s →
      (∀ answer, P (finalState answer) → Steady P (resume answer)) →
      Steady P (.calls way goal s resume)

namespace Turn.Steady

variable {δ δ' β β' : Type}

theorem state {turn : Turn γ σ ε α (EStateM.Result δ σ β)} (steady : turn.Steady P) :
    P turn.state := by
  cases steady with
  | ends here => exact here
  | calls here => exact here

theorem thenDo {turn : Turn γ σ ε α (EStateM.Result δ σ β)}
    {f : EStateM.Result δ σ β → Turn γ σ ε α (EStateM.Result δ' σ β')} (steady : turn.Steady P)
    (next : ∀ outcome, P (finalState outcome) → (f outcome).Steady P) :
    (turn.thenDo f).Steady P := by
  induction steady with
  | ends here => exact next _ here
  | calls here _ ih => exact .calls here fun answer after => ih answer after

end Turn.Steady

def Pending.Steady (P : σ → Prop) {δ β : Type} (x : Pending γ σ ε α δ β) : Prop :=
  ∀ s, P s → (x s).Steady P

namespace Pending.Steady

variable {δ β β' : Type}

theorem lift {act : EStateM δ σ β} (keeps : ∀ s, P s → P (finalState (act s))) :
    (Pending.lift act : Pending γ σ ε α δ β).Steady P :=
  fun s here => .ends (keeps s here)

theorem pure (a : β) : (Pure.pure a : Pending γ σ ε α δ β).Steady P := .lift fun _ here => here

theorem throw (e : δ) : (Pending.lift (MonadExcept.throw e) : Pending γ σ ε α δ β).Steady P :=
  .lift fun _ here => here

theorem call (way : Way) (goal : γ) : (Pending.call way goal : Pending γ σ ε α ε α).Steady P :=
  fun _ here => .calls here fun _ after => .ends after

theorem bind {x : Pending γ σ ε α δ β} {f : β → Pending γ σ ε α δ β'} (first : x.Steady P)
    (rest : ∀ a, (f a).Steady P) : (x >>= f).Steady P := by
  intro s here
  refine (first s here).thenDo fun outcome after => ?_
  cases outcome with
  | ok a t => exact rest a t after
  | error e t => exact .ends after

end Pending.Steady

structure Moment.Steady (P : σ → Prop) (m : Moment γ σ ε α) : Prop where
  turn : m.turn.Steady P
  waiting : ∀ frame ∈ m.stack, ∀ answer, P (finalState answer) → (frame.resume answer).Steady P

namespace Moment.Steady

variable {w : Calls γ σ ε α} {m : Moment γ σ ε α}

theorem step (bodies : ∀ goal, (w.body goal).Steady P) (steady : m.Steady P) :
    (w.step m).Steady P := by
  obtain ⟨turn, waiting⟩ := steady
  cases taken : m.turn with
  | ends outcome =>
      rw [taken] at turn
      cases waits : m.stack with
      | nil => simpa only [Calls.step, taken, waits] using ⟨taken ▸ turn, waits ▸ waiting⟩
      | cons frame stack =>
          rw [waits] at waiting
          simp only [Calls.step, taken, waits]
          exact ⟨waiting frame List.mem_cons_self outcome turn.state,
            fun other below => waiting other (List.mem_cons_of_mem _ below)⟩
  | calls way goal s resume =>
      rw [taken] at turn
      cases turn with
      | calls here next =>
          cases refused : w.refusal m way goal with
          | some e =>
              simp only [Calls.step, taken, refused]
              exact ⟨next (.error e s) here, waiting⟩
          | none =>
              simp only [Calls.step, taken, refused]
              exact ⟨bodies goal s here, List.forall_mem_cons.mpr ⟨next, waiting⟩⟩

theorem iterate (bodies : ∀ goal, (w.body goal).Steady P) (steady : m.Steady P) (k : Nat) :
    (w.step^[k] m).Steady P := by
  induction k with
  | zero => exact steady
  | succ k ih =>
      rw [Function.iterate_succ_apply']
      exact ih.step bodies

end Moment.Steady

/-! ## The limit of a writer -/

namespace Writing

variable {act : Writing Unit}

def KeepsLimit (act : Writing Unit) : Prop := ∀ w, (finalState (act w)).limit = w.limit

theorem keepsLimit_raw (bs : Bytes) : KeepsLimit (raw bs) := fun _ => rfl

theorem KeepsLimit.andThen {next : Writing Unit} (first : KeepsLimit act)
    (second : KeepsLimit next) :
    KeepsLimit (do act; next) := by
  intro w
  have same := first w
  cases run : act w with
  | error e out =>
      rw [bind_of_error run]
      simpa [run] using same
  | ok u out =>
      rw [bind_of_ok run]
      exact (second out).trans (by simpa [run] using same)

theorem keepsLimit_length (n : Nat) : KeepsLimit (length n) := by
  intro w
  rw [length, get_bind]
  split <;> rfl

theorem keepsLimit_sized (bs : Bytes) : KeepsLimit (sized bs) :=
  (keepsLimit_length _).andThen (keepsLimit_raw bs)

end Writing

def WriteState.Under (limit : Nat) (s : WriteState) : Prop := s.out.limit = limit

namespace Write

variable {c : WriteContext} {limit : Nat}

theorem under_emit {act : Writing Unit} (keeps : act.KeepsLimit) (s : WriteState)
    (under : s.Under limit) : (finalState (emit act s)).Under limit := by
  have same := keeps s.out
  unfold emit
  cases run : act s.out <;> rw [run] at same <;> exact same.trans under

theorem under_reference (id : Nat) (s : WriteState) (under : s.Under limit) :
    (finalState (reference id s)).Under limit := by
  rw [reference, get_bind]
  cases s.visited.idxOf? id with
  | some number => exact under
  | none =>
      simp only
      split <;> exact under

theorem under_unborrowed (id : Nat) (content : Ty) (s : WriteState) (under : s.Under limit) :
    (finalState (unborrowed c id content s)).Under limit := by
  unfold unborrowed
  split <;> exact under

theorem under_asset (content : Ty) (handle : AssetHandle) (s : WriteState)
    (under : s.Under limit) : (finalState (asset c content handle s)).Under limit := by
  unfold asset
  cases c.assets with
  | none => exact under
  | some resolver =>
      simp only
      cases resolver.pathOf handle with
      | none => exact under
      | some path => exact under_emit (Writing.keepsLimit_sized _) s under

theorem under_packed (type : Ty) (format : Plain.PackedFormat) (d : Plain.Datum) (s : WriteState)
    (under : s.Under limit) : (finalState (packed type format d s)).Under limit := by
  unfold packed
  cases Plain.checkOrder d with
  | error e => exact under
  | ok _ =>
      simp only
      cases format.encode d with
      | error reason => exact under
      | ok bs => exact under_emit (Writing.keepsLimit_sized bs) s under

theorem under_whole (type : Ty) {layout : Layout} {v : Value}
    (typed : ∀ content id, layout = .shared content → v = .object id → False)
    (polymorphic : ∀ id, layout = .anyShared → v = .object id → False) (s : WriteState)
    (under : s.Under limit) : (finalState (whole c none type layout v s)).Under limit := by
  have numbered (scalar : Scalar) (n : Int) : (Writing.scalar scalar n).KeepsLimit :=
    Writing.keepsLimit_raw _
  unfold whole
  split <;> first
    | exact under
    | exact under_emit (Writing.keepsLimit_raw _) s under
    | exact under_emit (Writing.keepsLimit_sized _) s under
    | exact under_asset _ _ s under
    | exact under_packed _ _ _ s under
    | exact under_emit (numbered .u32 s.counter) { s with counter := s.counter + 1 } under
    | exact (typed _ _ rfl rfl).elim
    | exact (polymorphic _ rfl rfl).elim

namespace Turns

theorem steady_emit {act : Writing Unit} (keeps : act.KeepsLimit) :
    (.lift (emit act) : WriteTurn Unit).Steady (WriteState.Under limit) :=
  .lift (under_emit keeps)

theorem steady_eachItem (type : Ty) (vs : List Value) :
    (eachItem type vs).Steady (WriteState.Under limit) := by
  induction vs with
  | nil => exact .pure _
  | cons v rest ih => exact .bind (.call _ _) fun _ => ih

theorem steady_eachEntry (keyType valueType : Ty) (vs : List Value) :
    (eachEntry keyType valueType vs).Steady (WriteState.Under limit) := by
  induction vs with
  | nil => exact .pure _
  | cons e rest ih =>
      cases e with
      | entry k v => exact .bind (.call _ _) fun _ => .bind (.call _ _) fun _ => ih
      | _ => exact .throw _

theorem steady_eachField (types : List Ty) (vs : List Value) :
    (eachField types vs).Steady (WriteState.Under limit) := by
  induction vs generalizing types with
  | nil =>
      cases types with
      | nil => exact .pure _
      | cons type types => exact .throw _
  | cons v rest ih =>
      cases types with
      | nil => exact .throw _
      | cons type types => exact .bind (.call _ _) fun _ => ih types

theorem steady_reference (id : Nat) {before : WriteTurn Unit} {goal : WriteGoal}
    (steady : before.Steady (WriteState.Under limit)) :
    (do
      if ← .lift (reference id) then
        before
        .call (.into id) goal : WriteTurn Unit).Steady (WriteState.Under limit) := by
  refine .bind (.lift (under_reference id)) fun first => ?_
  cases first with
  | false => exact .pure _
  | true => exact .bind steady fun _ => .call _ _

theorem steady_byLayout (type : Ty) (layout : Layout) (v : Value) :
    (byLayout c type layout v).Steady (WriteState.Under limit) := by
  have counted (vs : List Value) : (.lift (emit (Writing.length vs.length)) : WriteTurn Unit).Steady
      (WriteState.Under limit) := steady_emit (Writing.keepsLimit_length vs.length)
  unfold byLayout
  split
  case h_1 item vs | h_2 item _ vs => exact .bind (counted vs) fun _ => steady_eachItem item vs
  case h_3 keyType valueType _ vs =>
    exact .bind (counted vs) fun _ => steady_eachEntry keyType valueType vs
  case h_4 types vs => exact steady_eachField types vs
  case h_5 item v => exact .bind (steady_emit (Writing.keepsLimit_raw _)) fun _ => .call _ _
  case h_6 types vs => exact .call _ _
  case h_7 content id =>
    unfold shared
    cases c.heap[id]? with
    | none => exact .throw _
    | some cell =>
        simp only
        split
        · exact steady_reference id (.lift (under_unborrowed id content))
        · exact .throw _
  case h_8 id =>
    unfold anyShared
    cases c.heap[id]? with
    | none => exact .throw _
    | some cell =>
        simp only
        cases c.registry.tag? cell.type with
        | none => exact .throw _
        | some tag => exact steady_reference id (steady_emit (Writing.keepsLimit_raw _))
  case h_9 typed polymorphic => exact .lift (under_whole type typed polymorphic)

theorem steady_body (c : WriteContext) (goal : WriteGoal) :
    (c.calls.body goal).Steady (WriteState.Under limit) := by
  have written (type : Ty) (v : Value) : (value c type v).Steady (WriteState.Under limit) := by
    unfold value
    split
    · exact steady_byLayout type _ v
    · exact .throw _
  cases goal with
  | value type v => exact written type v
  | fields types vs => exact steady_eachField types vs
  | content id type v => exact .bind (.lift (under_unborrowed id type)) fun _ => written type v

end Turns

end Write

namespace Registry

def snapshottingAt (r : Registry) (o : WalkOptions) (g : Graph) (counter k : Nat) :
    Moment WriteGoal WriteState WalkError Unit :=
  (r.writeContext o g).calls.step^[k] (o.snapshotting g counter)

theorem limit_snapshottingAt (r : Registry) (o : WalkOptions) (g : Graph) (counter k : Nat) :
    (r.snapshottingAt o g counter k).turn.state.out.limit = min o.limits.maxSequence maxPrefix := by
  have first : (o.snapshotting g counter).Steady
      (WriteState.Under (min o.limits.maxSequence maxPrefix)) :=
    ⟨.calls rfl fun _ after => .ends after, by simp [WalkOptions.snapshotting]⟩
  exact (first.iterate (Write.Turns.steady_body _) k).turn.state

theorem limit_restoringAt (r : Registry) (o : WalkOptions) (type : Ty) (bs : Bytes) (k : Nat) :
    (r.restoringAt o type bs k).turn.state.input.limit = o.limits.maxSequence := by
  have later : ReadState.Later { input := { rest := bs, limit := o.limits.maxSequence } }
      (r.restoringAt o type bs k).turn.state :=
    .trans sound_restoring.later (later_restoringAt r o type bs (Nat.zero_le k))
  obtain ⟨cs, ids, passes, _⟩ := later.moved
  exact passes.limit_eq

end Registry

end Chronicle
