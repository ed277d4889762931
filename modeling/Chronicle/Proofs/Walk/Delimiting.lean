import Chronicle.Proofs.Walk.RoundTrip
import Chronicle.Proofs.Walk.Unfolding

/-!
# Snapshots delimit themselves

What stands behind the octets that a walk takes does not matter to it: with more
input it ends in the same way and leaves the rest, unless it had run out of
input.  So a payload that is accepted is no proper prefix of another one, and
every cut of it is told from other damage.
-/

namespace Chronicle

open Success

namespace ByteReader

variable (r : ByteReader)

def followedBy (tail : Bytes) : ByteReader := { r with rest := r.rest ++ tail }

@[simp] theorem rest_followedBy (tail : Bytes) : (r.followedBy tail).rest = r.rest ++ tail := rfl

end ByteReader

namespace ReadState

variable (s : ReadState)

def followedBy (tail : Bytes) : ReadState := { s with input := s.input.followedBy tail }

@[simp] theorem heap_followedBy (tail : Bytes) : (s.followedBy tail).heap = s.heap := rfl

end ReadState

def mapState {ε σ α : Type} (f : σ → σ) : EStateM.Result ε σ α → EStateM.Result ε σ α
  | .ok a s => .ok a (f s)
  | .error e s => .error e (f s)

/-- Whether work failed because it ran out of input. -/
def EndsEarly {ε σ α : Type} (cause : ε → WalkError) (outcome : EStateM.Result ε σ α) : Prop :=
  ∃ e s needed available, outcome = .error e s ∧ cause e = .unexpectedEnd needed available

def Delimits {ε σ α : Type} (followedBy : σ → Bytes → σ) (cause : ε → WalkError)
    (act : EStateM ε σ α) : Prop := ∀ s tail,
  EndsEarly cause (act s) ∨ act (followedBy s tail) = mapState (followedBy · tail) (act s)

namespace Delimits

variable {ε σ α β : Type} {followedBy : σ → Bytes → σ} {cause : ε → WalkError}

theorem pure (a : α) : Delimits followedBy cause (Pure.pure a : EStateM ε σ α) :=
  fun _ _ => .inr rfl

theorem throw (e : ε) : Delimits followedBy cause (MonadExcept.throw e : EStateM ε σ α) :=
  fun _ _ => .inr rfl

theorem bind {x : EStateM ε σ α} {f : α → EStateM ε σ β} (first : Delimits followedBy cause x)
    (rest : ∀ a, Delimits followedBy cause (f a)) : Delimits followedBy cause (x >>= f) := by
  intro s tail
  rcases first s tail with ⟨e, t, needed, available, run, ended⟩ | same
  · exact .inl ⟨e, t, needed, available, bind_of_error run f, ended⟩
  · cases run : x s with
    | ok a t =>
        rw [run] at same
        rw [bind_of_ok run, bind_of_ok same]
        exact rest a t tail
    | error e t =>
        rw [run] at same
        rw [bind_of_error run, bind_of_error same]
        exact .inr rfl

theorem get {f : σ → EStateM ε σ β} (blind : ∀ s tail, f (followedBy s tail) = f s)
    (rest : ∀ s, Delimits followedBy cause (f s)) :
    Delimits followedBy cause (MonadStateOf.get >>= f) := by
  intro s tail
  change EndsEarly cause (f s s) ∨ f (followedBy s tail) (followedBy s tail) =
    mapState (followedBy · tail) (f s s)
  rw [blind]
  exact rest s s tail

end Delimits

/-! ## Fields -/

namespace Reading

theorem delimits_raw (n : Nat) : Delimits ByteReader.followedBy id (raw n) := by
  intro r tail
  cases found : splitExact? n r.rest with
  | none =>
      exact .inl ⟨_, r, n, r.remaining, by rw [raw, get_bind, found]; rfl, rfl⟩
  | some parts =>
      obtain ⟨start, rfl⟩ := splitExact?_eq_some found
      have longer : splitExact? parts.1.length (r.rest ++ tail) =
          some (parts.1, parts.2 ++ tail) := by
        rw [start, List.append_assoc, splitExact?_append]
      rw [raw, get_bind, get_bind, ByteReader.rest_followedBy, found, longer]
      exact .inr rfl

theorem rules_delimits : Rules (Delimits ByteReader.followedBy id) where
  pure := .pure
  throw e _ := .throw e
  bind := .bind
  limited rest := .get (fun _ _ => rfl) fun r => rest r.limit
  raw := delimits_raw

end Reading

/-! ## Walks -/

namespace Read

variable {c : ReadContext} {lower : Lower}

theorem delimits_take {α : Type} {act : Reading α} (field : act.IsField) :
    Delimits ReadState.followedBy id (take act) := by
  intro s tail
  have moved : (s.followedBy tail).input = s.input.followedBy tail := rfl
  rcases Reading.rules_delimits.field field s.input tail
    with ⟨e, input, needed, available, run, ended⟩ | same
  · exact .inl ⟨e, _, needed, available, by rw [take, run], ended⟩
  · rw [take, take, moved, same]
    cases act s.input <;> exact .inr rfl

theorem delimits_make {α : Type} (act : Making α) :
    Delimits ReadState.followedBy id (make act) := by
  intro s tail
  rw [make, make, ReadState.heap_followedBy]
  cases act s.heap <;> exact .inr rfl

theorem delimits_relabel {ε ε' α : Type} {cause : ε → WalkError} {cause' : ε' → WalkError}
    {act : EStateM ε ReadState α} {g : ε → ε'} (same : ∀ e, cause' (g e) = cause e)
    (holds : Delimits ReadState.followedBy cause act) :
    Delimits ReadState.followedBy cause' (relabel g act) := by
  intro s tail
  rcases holds s tail with ⟨e, t, needed, available, run, ended⟩ | equal
  · exact .inl ⟨g e, t, needed, available, by rw [relabel, run], (same e).trans ended⟩
  · rw [relabel, relabel, equal]
    cases act s <;> exact .inr rfl

theorem delimits_marker : Delimits ReadState.followedBy id marker := by
  refine (delimits_take .octet).bind fun octet => ?_
  split
  · refine (delimits_take .word).bind fun found => .get (fun _ _ => rfl) fun s => ?_
    change Delimits _ _ (if found = nextNumber s then _ else _)
    split
    · exact .pure _
    · exact .throw _
  · split
    · refine (delimits_take .word).bind fun number => .get (fun _ _ => rfl) fun s => ?_
      split
      · exact .pure _
      · exact .throw _
    · exact .throw _

theorem delimits_announce (number : Nat) (content : Ty) :
    Delimits ReadState.followedBy id (announce c number content) := by
  intro s tail
  have same : nextNumber (s.followedBy tail) = nextNumber s := rfl
  rw [announce_eq, announce_eq, ReadState.heap_followedBy, same]
  cases c.registry.makeBlank content s.heap with
  | error e heap => exact .inr rfl
  | ok blank heap =>
      simp only
      split <;> exact .inr rfl

theorem delimits_object (number : Nat) (content : Ty)
    (deeper : ∀ walk, lower = some walk → ∀ old,
      Delimits ReadState.followedBy Prod.fst (walk content old)) :
    Delimits ReadState.followedBy id (object c lower number content) := by
  intro s tail
  rw [object_eq, object_eq]
  rcases delimits_announce (c := c) number content s tail with
    ⟨e, t, needed, available, run, ended⟩ | same
  · exact .inl ⟨e, t, needed, available, by rw [run], ended⟩
  · rw [same]
    cases announce c number content s with
    | error e t => exact .inr rfl
    | ok new t =>
        have inner : Delimits ReadState.followedBy Prod.fst
            (descend c lower new.2 fun walk => walk content new.2) := by
          cases lower with
          | none => exact .throw _
          | some walk => exact deeper walk rfl new.2
        have entered : { t.followedBy tail with filling := new.1 :: (t.followedBy tail).filling } =
            ({ t with filling := new.1 :: t.filling } : ReadState).followedBy tail := rfl
        simp only [mapState]
        rcases inner { t with filling := new.1 :: t.filling } tail with
          ⟨e, u, needed, available, run, ended⟩ | same
        · exact .inl ⟨e.1, _, needed, available, by rw [run], ended⟩
        · rw [entered, same]
          cases descend c lower new.2 (fun walk => walk content new.2)
            { t with filling := new.1 :: t.filling } <;> exact .inr rfl

theorem rules_delimits : Rules (Delimits ReadState.followedBy) where
  pure := .pure
  throw e _ := .throw e
  bind := .bind
  relabel same holds := delimits_relabel same holds
  look only holds := .get (fun s tail => only (s.followedBy tail) s rfl rfl) holds
  field := delimits_take

theorem law_delimits (c : ReadContext) : Law c (Delimits ReadState.followedBy) where
  toRules := rules_delimits
  ascend := rules_delimits.ascend fun _ _ e _ => .throw e
  marker := delimits_marker
  blank _ := delimits_make _
  object number content := delimits_object number content

theorem delimits_valueAt (c : ReadContext) :
    ∀ (n : Nat) (type : Ty) (old : Value),
      Delimits ReadState.followedBy Prod.fst (valueAt c n type old) :=
  everyLevel (Q := fun walk => ∀ type old, Delimits ReadState.followedBy Prod.fst (walk type old))
    fun n deeper type old s tail => by
      have room : s.input.remaining ≤ (s.followedBy tail).input.remaining := by
        simp [ReadState.followedBy, ByteReader.remaining]
      rw [valueAt_of_room n type old room, valueAt_eq]
      exact (law_delimits c).value deeper _ type old s tail

end Read

/-! ## Payloads -/

namespace Registry

variable {r : Registry} {o : WalkOptions} {type : Ty} {bs : Bytes} {g : Graph}

theorem delimits_readGraph (bs tail : Bytes) :
    EndsEarly id (r.readGraph o type bs) ∨
      r.readGraph o type (bs ++ tail) = mapState (·.followedBy tail) (r.readGraph o type bs) :=
  Read.law_delimits (r.readContext o) |>.create (Read.delimits_valueAt _ _ type) _ tail

theorem restore_of_endsEarly (early : EndsEarly id (r.readGraph o type bs)) :
    ∃ needed available, r.restore o type bs = .error (.unexpectedEnd needed available) := by
  obtain ⟨e, s, needed, available, run, rfl⟩ := early
  exact ⟨needed, available, by rw [restore, run]⟩

/-- An accepted payload is refused with its end cut off, for want of input, and
with anything behind it, for what is left over; so it starts no other payload of
its type. -/
theorem restore_delimited (accepted : r.restore o type bs = .ok g) :
    (∀ front cut, front ++ cut = bs → cut ≠ [] →
      ∃ needed available, r.restore o type front = .error (.unexpectedEnd needed available)) ∧
    (∀ tail, tail ≠ [] → r.restore o type (bs ++ tail) = .error (.trailingBytes tail.length)) ∧
    (∀ other g', r.restore o type other = .ok g' → bs <+: other → other = bs) := by
  obtain ⟨root, s, read, used, _⟩ := Registry.restore_eq_ok.mp accepted
  have longer : ∀ tail, tail ≠ [] →
      r.restore o type (bs ++ tail) = .error (.trailingBytes tail.length) := by
    intro tail more
    rcases delimits_readGraph bs tail with ⟨e, _, _, _, failed, _⟩ | same
    · rw [read] at failed
      contradiction
    · have left : (s.followedBy tail).input.rest = tail := by
        rw [ReadState.followedBy, ByteReader.rest_followedBy, used, List.nil_append]
      have some_left : tail.isEmpty = false := List.isEmpty_eq_false_iff.mpr more
      rw [restore, same, read]
      simp [mapState, ByteReader.remaining, left, some_left]
  refine ⟨fun front cut whole more => ?_, longer, fun other g' restored start => ?_⟩
  · rcases delimits_readGraph front cut with early | same
    · exact restore_of_endsEarly early
    · rw [whole, read] at same
      cases run : r.readGraph o type front with
      | error e t => simp [run, mapState] at same
      | ok v t =>
          rw [run] at same
          injection same with _ same
          have left : t.input.rest ++ cut = [] := by rw [← used, same]; rfl
          exact absurd (List.append_eq_nil_iff.mp left).2 more
  · obtain ⟨tail, rfl⟩ := start
    by_cases more : tail = []
    · rw [more, List.append_nil]
    · rw [longer tail more] at restored
      contradiction

end Registry

theorem knot_restored : ∃ g, knotRegistry.restore {} knot knotOctets = .ok g := by
  obtain ⟨f, s, read, used, _⟩ := (knot_written.restores (by decide) knot_faithful).readGraph
  exact ⟨_, Registry.restore_eq_ok.mpr ⟨_, s, read, used, rfl⟩⟩

theorem restore_delimited_knot : ∃ g, knotRegistry.restore {} knot knotOctets = .ok g ∧
    (∀ front cut, front ++ cut = knotOctets → cut ≠ [] → ∃ needed available,
      knotRegistry.restore {} knot front = .error (.unexpectedEnd needed available)) ∧
    (∀ tail, tail ≠ [] →
      knotRegistry.restore {} knot (knotOctets ++ tail) = .error (.trailingBytes tail.length)) ∧
    (∀ other g', knotRegistry.restore {} knot other = .ok g' → knotOctets <+: other →
      other = knotOctets) := by
  obtain ⟨g, restored⟩ := knot_restored
  exact ⟨g, restored, Registry.restore_delimited restored⟩

end Chronicle
