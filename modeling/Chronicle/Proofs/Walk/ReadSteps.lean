import Chronicle.Proofs.Codec.Consumption
import Chronicle.Walk.Snapshot

/-!
# Steps of a walk that reads

When single steps of the walk succeed, what they consume, and how the walk
comes apart by the layout of the type.
-/

namespace Chronicle

open Success

structure ReadState.Consumes (s : ReadState) (bs : Bytes) (t : ReadState) : Prop where
  passes : s.input.Passes bs t.input
  heap_eq : t.heap = s.heap
  bound_eq : t.bound = s.bound
  filling_eq : t.filling = s.filling

namespace ReadState

variable {s t u : ReadState} {bs cs : Bytes}

theorem consumes_nil : s.Consumes [] t ↔ s = t := by
  constructor
  · intro h
    rcases s with ⟨input, heap, bound, filling⟩
    rcases t with ⟨input', heap', bound', filling'⟩
    obtain ⟨passes, heap_eq, bound_eq, filling_eq⟩ := h
    simp only at passes heap_eq bound_eq filling_eq
    rw [ByteReader.passes_nil.mp passes, heap_eq, bound_eq, filling_eq]
  · rintro rfl
    exact ⟨.refl _, rfl, rfl, rfl⟩

theorem consumes_append : s.Consumes (bs ++ cs) u ↔ ∃ t, s.Consumes bs t ∧ t.Consumes cs u := by
  constructor
  · intro h
    obtain ⟨input, first, second⟩ := ByteReader.passes_append.mp h.passes
    exact ⟨{ s with input }, ⟨first, rfl, rfl, rfl⟩,
      ⟨second, h.heap_eq, h.bound_eq, h.filling_eq⟩⟩
  · rintro ⟨t, first, second⟩
    exact ⟨first.passes.trans second.passes, second.heap_eq.trans first.heap_eq,
      second.bound_eq.trans first.bound_eq, second.filling_eq.trans first.filling_eq⟩

theorem exists_consumes (h : s.input.rest = bs ++ cs) : ∃ t, s.Consumes bs t :=
  ⟨{ s with input := s.input.skip bs.length }, ByteReader.passes_skip h, rfl, rfl, rfl⟩

theorem Consumes.nextNumber_eq (h : s.Consumes bs t) : Read.nextNumber t = Read.nextNumber s := by
  rw [Read.nextNumber, h.bound_eq]
  rfl

end ReadState

namespace Read

variable {c : ReadContext} {s t : ReadState} {α β : Type} {a : α}

/-! ## Single steps -/

theorem take_eq_ok {act : Reading α} :
    take act s = .ok a t ↔ ∃ input, act s.input = .ok a input ∧ t = { s with input } := by
  unfold take
  cases act s.input with
  | ok b input =>
      constructor
      · intro run
        injection run with same moved
        exact ⟨input, by rw [same], moved.symm⟩
      · rintro ⟨_, ⟨⟩, rfl⟩
        rfl
  | error e input => simp

theorem take_eq_ok_iff {act : Reading α} {accepted : Prop} {bs : Bytes}
    (law : ∀ input, act s.input = .ok a input ↔ accepted ∧ s.input.Passes bs input) :
    take act s = .ok a t ↔ accepted ∧ s.Consumes bs t := by
  rw [take_eq_ok]
  constructor
  · rintro ⟨input, run, rfl⟩
    obtain ⟨fits, passes⟩ := (law input).mp run
    exact ⟨fits, passes, rfl, rfl, rfl⟩
  · rintro ⟨fits, passes, heap_eq, bound_eq, filling_eq⟩
    refine ⟨t.input, (law _).mpr ⟨fits, passes⟩, ?_⟩
    rw [← heap_eq, ← bound_eq, ← filling_eq]

theorem take_octet {b : UInt8} : take Reading.octet s = .ok b t ↔ s.Consumes [b] t := by
  have law : ∀ input, Reading.octet s.input = .ok b input ↔ True ∧ s.input.Passes [b] input :=
    fun input => by rw [Reading.octet_eq_ok, true_and]
  rw [take_eq_ok_iff law, true_and]

theorem take_word {n : Nat} :
    take Reading.word s = .ok n t ↔ n < leBound 4 ∧ s.Consumes (leBytes 4 n) t :=
  take_eq_ok_iff fun _ => Reading.word_eq_ok

theorem take_bool {b : Bool} :
    take Reading.bool s = .ok b t ↔ s.Consumes [if b then 1 else 0] t := by
  have law : ∀ input, Reading.bool s.input = .ok b input ↔
      True ∧ s.input.Passes [if b then 1 else 0] input :=
    fun input => by rw [Reading.bool_eq_ok, true_and]
  rw [take_eq_ok_iff law, true_and]

theorem take_scalar {k : Scalar} {n : Int} :
    take (Reading.scalar k) s = .ok n t ↔ k.Holds n ∧ s.Consumes (k.encode n) t :=
  take_eq_ok_iff fun _ => Reading.scalar_eq_ok

theorem take_length {n : Nat} :
    take Reading.length s = .ok n t ↔
      (n ≤ s.input.limit ∧ n < leBound 4) ∧ s.Consumes (leBytes 4 n) t :=
  take_eq_ok_iff fun _ => by rw [Reading.length_eq_ok, and_assoc]

theorem take_sized {bs : Bytes} :
    take Reading.sized s = .ok bs t ↔
      (bs.length ≤ s.input.limit ∧ bs.length < leBound 4) ∧
        s.Consumes (leBytes 4 bs.length ++ bs) t :=
  take_eq_ok_iff fun _ => by rw [Reading.sized_eq_ok, and_assoc]

theorem take_text {text : String} :
    take Reading.text s = .ok text t ↔
      ((Utf8.encode text).length ≤ s.input.limit ∧ (Utf8.encode text).length < leBound 4) ∧
        s.Consumes (leBytes 4 (Utf8.encode text).length ++ Utf8.encode text) t :=
  take_eq_ok_iff fun _ => by rw [Reading.text_eq_ok, and_assoc]

theorem make_eq_ok {act : Making α} :
    make act s = .ok a t ↔ ∃ heap, act s.heap = .ok a heap ∧ t = { s with heap } := by
  unfold make
  cases act s.heap with
  | ok b heap =>
      constructor
      · intro run
        injection run with same moved
        exact ⟨heap, by rw [same], moved.symm⟩
      · rintro ⟨_, ⟨⟩, rfl⟩
        rfl
  | error e heap => simp

theorem keeping_eq_ok {old : β} {act : Read α} : keeping old act s = .ok a t ↔ act s = .ok a t := by
  unfold keeping
  cases act s <;> simp

theorem discarding_eq_ok {act : Filling α α} :
    discarding act s = .ok a t ↔ act s = .ok a t := by
  unfold discarding
  cases act s <;> simp

theorem listSoFar_eq_ok {acc : Array Value} {act : Read α} :
    listSoFar acc act s = .ok a t ↔ act s = .ok a t := by
  unfold listSoFar
  cases act s <;> simp

theorem verdict_eq_ok {container : String} {found : Comparison} {u : Unit} :
    verdict container found = .ok u ↔ found = .found .lt := by
  rcases found with (_ | _ | _) | _ | _ <;> simp [verdict]

theorem ascend_eq_ok {container : String} {order : KeyOrder} {acc : Array Value} {key : Value}
    {u : Unit} :
    ascend container order acc key s = .ok u t ↔
      (∀ last, acc.back? = some last →
        order.compare s.heap s.filling last.orderingKey key = .found .lt) ∧ s = t := by
  unfold ascend
  cases acc.back? with
  | none => simp [pure_eq_ok]
  | some last => simp only [get_bind, liftResult_eq_ok, verdict_eq_ok, Option.some.injEq,
      forall_eq']

theorem asRecord_eq_ok {act : Filling (List Value) (List Value)} {v : Value} :
    asRecord act s = .ok v t ↔ ∃ vs, act s = .ok vs t ∧ v = .list vs := by
  unfold asRecord
  cases act s with
  | ok vs u =>
      constructor
      · intro run
        injection run with same moved
        exact ⟨vs, by rw [moved], same.symm⟩
      · rintro ⟨_, ⟨⟩, rfl⟩
        rfl
  | error e u => simp

theorem descend_eq_ok {lower : Lower} {old : α} {act : Walker → Filling α α} :
    descend c lower old act s = .ok a t ↔ ∃ walk, lower = some walk ∧ act walk s = .ok a t := by
  cases lower with
  | none => simp [descend, throw_eq_ok]
  | some walk => simp [descend]

theorem create_eq_ok {walk : Walker} {type : Ty} {v : Value} :
    create c walk type s = .ok v t ↔ ∃ blank heap,
      c.registry.makeBlank type s.heap = .ok blank heap ∧
        walk type blank { s with heap } = .ok v t := by
  simp only [create, bind_eq_ok, make_eq_ok, discarding_eq_ok]
  constructor
  · rintro ⟨blank, _, ⟨heap, made, rfl⟩, run⟩
    exact ⟨blank, heap, made, run⟩
  · rintro ⟨blank, heap, made, run⟩
    exact ⟨blank, _, ⟨heap, made, rfl⟩, run⟩

/-! ## Markers and objects -/

theorem marker_eq_ok {m : Marker} :
    marker s = .ok m t ↔
      (m = .fresh (nextNumber s) ∧
        s.Consumes (newMarker :: leBytes 4 (nextNumber s)) t) ∨
      (∃ number id, m = .existing number id ∧ number < leBound 4 ∧
        s.bound[number]? = some id ∧ s.Consumes (backMarker :: leBytes 4 number) t) := by
  have below : nextNumber s < leBound 4 := Nat.mod_lt _ (by simp [leBound])
  simp only [marker, bind_eq_ok, take_octet]
  constructor
  · rintro ⟨octet, s₁, first, run⟩
    by_cases fresh : octet = newMarker
    · simp only [fresh, ↓reduceIte, bind_eq_ok, take_word, get_eq_ok] at run
      obtain ⟨found, s₂, ⟨_, second⟩, _, _, ⟨rfl, rfl⟩, run⟩ := run
      have moved : s.Consumes (octet :: leBytes 4 found) s₂ :=
        ReadState.consumes_append.mpr ⟨s₁, first, second⟩
      have same : nextNumber s₂ = nextNumber s := moved.nextNumber_eq
      by_cases next : found = nextNumber s₂
      · rw [if_pos next] at run
        obtain ⟨rfl, rfl⟩ := pure_eq_ok.mp run
        rw [next, same, fresh] at moved
        exact .inl ⟨by rw [next, same], moved⟩
      · rw [if_neg next] at run
        exact (throw_eq_ok.mp run).elim
    · by_cases back : octet = backMarker
      · simp only [back, show backMarker ≠ newMarker by decide, ↓reduceIte, bind_eq_ok,
          take_word, get_eq_ok] at run
        obtain ⟨number, s₂, ⟨small, second⟩, _, _, ⟨rfl, rfl⟩, run⟩ := run
        have moved : s.Consumes (octet :: leBytes 4 number) s₂ :=
          ReadState.consumes_append.mpr ⟨s₁, first, second⟩
        cases known : s₂.bound[number]? with
        | none => simp [known, throw_eq_ok] at run
        | some id =>
            simp only [known] at run
            obtain ⟨rfl, rfl⟩ := pure_eq_ok.mp run
            rw [moved.bound_eq] at known
            rw [back] at moved
            exact .inr ⟨number, id, rfl, small, known, moved⟩
      · simp [fresh, back, throw_eq_ok] at run
  · rintro (⟨rfl, moved⟩ | ⟨number, id, rfl, small, known, moved⟩)
    · obtain ⟨s₁, first, second⟩ := ReadState.consumes_append.mp
        (show s.Consumes ([newMarker] ++ _) t from moved)
      have same : nextNumber t = nextNumber s := moved.nextNumber_eq
      refine ⟨newMarker, s₁, first, ?_⟩
      simp only [↓reduceIte, bind_eq_ok, take_word, get_eq_ok]
      refine ⟨nextNumber s, t, ⟨below, second⟩, t, t, ⟨rfl, rfl⟩, ?_⟩
      rw [if_pos same.symm]
      exact pure_eq_ok.mpr ⟨rfl, rfl⟩
    · obtain ⟨s₁, first, second⟩ := ReadState.consumes_append.mp
        (show s.Consumes ([backMarker] ++ _) t from moved)
      refine ⟨backMarker, s₁, first, ?_⟩
      simp only [show backMarker ≠ newMarker by decide, ↓reduceIte, bind_eq_ok, take_word,
        get_eq_ok]
      refine ⟨number, t, ⟨small, second⟩, t, t, ⟨rfl, rfl⟩, ?_⟩
      rw [moved.bound_eq, known]
      exact pure_eq_ok.mpr ⟨rfl, rfl⟩

theorem bind_number_eq_ok {number id : Nat} {u : Unit} :
    bind number id s = .ok u t ↔
      number = nextNumber s ∧ t = { s with bound := s.bound.push id } := by
  simp only [bind, bind_eq_ok, get_eq_ok]
  constructor
  · rintro ⟨_, _, ⟨rfl, rfl⟩, run⟩
    by_cases next : number = nextNumber s
    · simp only [next, ne_eq, not_true_eq_false, ↓reduceIte] at run
      exact ⟨next, (set_eq_ok.mp run).symm⟩
    · simp [next, bind_eq_ok, throw_eq_ok] at run
  · rintro ⟨next, rfl⟩
    refine ⟨s, s, ⟨rfl, rfl⟩, ?_⟩
    simp only [next, ne_eq, not_true_eq_false, ↓reduceIte]
    exact set_eq_ok.mpr rfl

theorem fillObject_eq_ok {lower : Lower} {id : Nat} {cell : Cell} {u : Unit}
    (found : s.heap[id]? = some cell) :
    fillObject c lower id s = .ok u t ↔ ∃ walk w m, lower = some walk ∧
      walk cell.type cell.content { s with filling := id :: s.filling } = .ok w m ∧
      t = { m with heap := m.heap.fill id w, filling := s.filling } := by
  have opened : ∀ w m, descend c lower cell.content
      (fun walk => walk cell.type cell.content) { s with filling := id :: s.filling } =
        .ok w m ↔ ∃ walk, lower = some walk ∧
          walk cell.type cell.content { s with filling := id :: s.filling } = .ok w m :=
    fun w m => descend_eq_ok
  simp only [fillObject, found]
  cases run : descend c lower cell.content (fun walk => walk cell.type cell.content)
      { s with filling := id :: s.filling } with
  | ok w m =>
      obtain ⟨walk, level, inner⟩ := (opened w m).mp run
      simp only [EStateM.Result.ok.injEq, true_and]
      constructor
      · rintro rfl
        exact ⟨walk, w, m, level, inner, rfl⟩
      · rintro ⟨walk', w', m', level', inner', rfl⟩
        have same := (opened w' m').mpr ⟨walk', level', inner'⟩
        rw [run] at same
        injection same with same_value same_state
        rw [same_value, same_state]
  | error e m =>
      simp only [reduceCtorEq, false_iff]
      rintro ⟨walk, w, m', level, inner, _⟩
      have same := (opened w m').mpr ⟨walk, level, inner⟩
      simp [run] at same

theorem object_eq_ok {lower : Lower} {number : Nat} {content : Ty} {v : Value} :
    object c lower number content s = .ok v t ↔ ∃ blank heap walk w m,
      c.registry.makeBlank content s.heap = .ok blank heap ∧ number = nextNumber s ∧
      lower = some walk ∧
      walk content blank
        { s with
          heap := heap.push ⟨content, blank⟩
          bound := s.bound.push heap.size
          filling := heap.size :: s.filling } = .ok w m ∧
      v = .object heap.size ∧
      t = { m with heap := m.heap.fill heap.size w, filling := s.filling } := by
  have place : ∀ (heap : Heap) (blank : Value),
      (heap.push ⟨content, blank⟩)[heap.size]? = some ⟨content, blank⟩ := by simp
  have allocate_eq : ∀ (s : ReadState) (blank : Value),
      make (modifyGet fun h : Heap => h.allocate content blank) s =
        .ok s.heap.size { s with heap := s.heap.push ⟨content, blank⟩ } := fun _ _ => rfl
  have made_iff : ∀ blank t, make (c.registry.makeBlank content) s = .ok blank t ↔
      ∃ heap, c.registry.makeBlank content s.heap = .ok blank heap ∧ t = { s with heap } :=
    fun _ _ => make_eq_ok
  simp only [object, bind_eq_ok, made_iff, allocate_eq, bind_number_eq_ok, pure_eq_ok,
    EStateM.Result.ok.injEq]
  constructor
  · rintro ⟨blank, _, ⟨heap, made, rfl⟩, _, _, ⟨rfl, rfl⟩, _, _, ⟨next, rfl⟩, _, _, filled,
      rfl, rfl⟩
    obtain ⟨walk, w, m, level, inner, rfl⟩ := (fillObject_eq_ok (place heap blank)).mp filled
    exact ⟨blank, heap, walk, w, m, made, next, level, inner, rfl, rfl⟩
  · rintro ⟨blank, heap, walk, w, m, made, next, level, inner, rfl, rfl⟩
    refine ⟨blank, _, ⟨heap, made, rfl⟩, _, _, ⟨rfl, rfl⟩, (), _, ⟨next, rfl⟩, (), _, ?_, rfl, rfl⟩
    exact (fillObject_eq_ok (place heap blank)).mpr ⟨walk, w, m, level, inner, rfl⟩

theorem shared_eq_ok {lower : Lower} {content : Ty} {v : Value} :
    shared c lower content s = .ok v t ↔
      (∃ number id cell, number < leBound 4 ∧ s.bound[number]? = some id ∧
        s.heap[id]? = some cell ∧ cell.type = content ∧ v = .object id ∧
        s.Consumes (backMarker :: leBytes 4 number) t) ∨
      (∃ m, s.Consumes (newMarker :: leBytes 4 (nextNumber s)) m ∧
        object c lower (nextNumber s) content m = .ok v t) := by
  simp only [shared, bind_eq_ok, marker_eq_ok]
  constructor
  · rintro ⟨_, m, ⟨rfl, moved⟩ | ⟨number, id, rfl, small, known, moved⟩, run⟩
    · exact .inr ⟨m, moved, run⟩
    · simp only [bind_eq_ok, get_eq_ok] at run
      obtain ⟨_, _, ⟨rfl, rfl⟩, run⟩ := run
      rw [moved.heap_eq] at run
      cases found : s.heap[id]? with
      | none => simp [found, throw_eq_ok] at run
      | some cell =>
          by_cases same : cell.type = content
          · simp only [found, same, ↓reduceIte] at run
            obtain ⟨rfl, rfl⟩ := pure_eq_ok.mp run
            exact .inl ⟨number, id, cell, small, known, found, same, rfl, moved⟩
          · simp [found, same, throw_eq_ok] at run
  · rintro (⟨number, id, cell, small, known, found, same, rfl, moved⟩ | ⟨m, moved, run⟩)
    · refine ⟨_, t, .inr ⟨number, id, rfl, small, known, moved⟩, ?_⟩
      refine bind_eq_ok.mpr ⟨t, t, get_eq_ok.mpr ⟨rfl, rfl⟩, ?_⟩
      rw [moved.heap_eq, found]
      simp only [same, ↓reduceIte]
      exact pure_eq_ok.mpr ⟨rfl, rfl⟩
    · exact ⟨_, m, .inl ⟨rfl, moved⟩, run⟩

theorem anyShared_eq_ok {lower : Lower} {v : Value} :
    anyShared c lower s = .ok v t ↔
      (∃ number id, number < leBound 4 ∧ s.bound[number]? = some id ∧ v = .object id ∧
        s.Consumes (backMarker :: leBytes 4 number) t) ∨
      (∃ tag content m, tag < leBound 4 ∧ c.registry.ofTag? tag = some content ∧
        s.Consumes (newMarker :: leBytes 4 (nextNumber s) ++ leBytes 4 tag) m ∧
        object c lower (nextNumber s) content m = .ok v t) := by
  simp only [anyShared, bind_eq_ok, marker_eq_ok]
  constructor
  · rintro ⟨_, m, ⟨rfl, moved⟩ | ⟨number, id, rfl, small, known, moved⟩, run⟩
    · simp only [bind_eq_ok, take_word] at run
      obtain ⟨tag, u, ⟨small, tagged⟩, run⟩ := run
      cases found : c.registry.ofTag? tag with
      | none => simp [found, throw_eq_ok] at run
      | some content =>
          simp only [found] at run
          exact .inr ⟨tag, content, u, small, found,
            ReadState.consumes_append.mpr ⟨m, moved, tagged⟩, run⟩
    · obtain ⟨rfl, rfl⟩ := pure_eq_ok.mp run
      exact .inl ⟨number, id, small, known, rfl, moved⟩
  · rintro (⟨number, id, small, known, rfl, moved⟩ | ⟨tag, content, m, small, found, moved, run⟩)
    · exact ⟨_, t, .inr ⟨number, id, rfl, small, known, moved⟩, pure_eq_ok.mpr ⟨rfl, rfl⟩⟩
    · obtain ⟨u, first, tagged⟩ := ReadState.consumes_append.mp moved
      refine ⟨_, u, .inl ⟨rfl, first⟩, ?_⟩
      refine bind_eq_ok.mpr ⟨tag, m, take_word.mpr ⟨small, tagged⟩, ?_⟩
      rw [found]
      exact run

theorem shared_of_fresh {lower : Lower} {content : Ty} {m : ReadState}
    (moved : s.Consumes (newMarker :: leBytes 4 (nextNumber s)) m) :
    shared c lower content s = object c lower (nextNumber s) content m := by
  have marked : marker s = .ok (.fresh (nextNumber s)) m := marker_eq_ok.mpr (.inl ⟨rfl, moved⟩)
  rw [shared, bind_of_ok marked]

theorem anyShared_of_fresh {lower : Lower} {tag : Nat} {content : Ty} {m : ReadState}
    (small : tag < leBound 4) (found : c.registry.ofTag? tag = some content)
    (moved : s.Consumes (newMarker :: leBytes 4 (nextNumber s) ++ leBytes 4 tag) m) :
    anyShared c lower s = object c lower (nextNumber s) content m := by
  obtain ⟨u, first, tagged⟩ := ReadState.consumes_append.mp moved
  have marked : marker s = .ok (.fresh (nextNumber s)) u := marker_eq_ok.mpr (.inl ⟨rfl, first⟩)
  have read : take Reading.word u = .ok tag m := take_word.mpr ⟨small, tagged⟩
  rw [anyShared, bind_of_ok marked]
  simp only
  rw [bind_of_ok read, found]

/-! ## Fields and layouts -/

theorem eachField_cons (walk : Walker) (type : Ty) (types : List Ty) (v : Value)
    (rest : List Value) (s : ReadState) :
    eachField walk (type :: types) (v :: rest) s =
      match walk type v s with
      | .error (e, v) s => .error (e, v :: rest) s
      | .ok v s =>
          match eachField walk types rest s with
          | .error (e, vs) s => .error (e, v :: vs) s
          | .ok vs s => .ok (v :: vs) s := rfl

theorem eachField_cons_eq_ok {walk : Walker} {type : Ty} {types : List Ty} {v : Value}
    {rest ws : List Value} :
    eachField walk (type :: types) (v :: rest) s = .ok ws t ↔ ∃ w m tail,
      walk type v s = .ok w m ∧ eachField walk types rest m = .ok tail t ∧ ws = w :: tail := by
  rw [eachField_cons]
  cases walk type v s with
  | error e m => simp
  | ok w m =>
      simp only [EStateM.Result.ok.injEq]
      cases run : eachField walk types rest m with
      | error e u =>
          simp only [reduceCtorEq, false_iff]
          rintro ⟨_, _, tail, ⟨rfl, rfl⟩, inner, _⟩
          simp [run] at inner
      | ok tail u =>
          simp only [EStateM.Result.ok.injEq]
          constructor
          · rintro ⟨rfl, rfl⟩
            exact ⟨w, m, tail, ⟨rfl, rfl⟩, run, rfl⟩
          · rintro ⟨_, _, tail', ⟨rfl, rfl⟩, inner, rfl⟩
            rw [run] at inner
            injection inner with same_tail same_state
            exact ⟨by rw [same_tail], same_state⟩

variable {lower : Lower} {fresh : Ty → Read Value}

theorem fieldsInPlace_eq (types : List Ty) (vs : List Value) :
    fieldsInPlace c lower fresh types vs = eachField (inPlace c lower fresh) types vs := by
  induction vs generalizing types with
  | nil => cases types <;> rfl
  | cons v rest ih =>
      cases types with
      | nil => rfl
      | cons type types =>
          rw [fieldsInPlace, ih]
          rfl

def freshAt (c : ReadContext) (lower : Lower) : Nat → Ty → Read Value
  | 0 => fun _ => throw (.unexpectedEnd 1 0)
  | octets + 1 => create c (value c lower octets)

theorem value_eq (octets : Nat) :
    value c lower octets = inPlace c lower (freshAt c lower octets) := by
  funext type old
  cases octets <;> rfl

def lowerAt (c : ReadContext) : Nat → Lower
  | 0 => none
  | n + 1 => some (valueAt c n)

theorem valueAt_eq (n : Nat) (type : Ty) (old : Value) (s : ReadState) :
    valueAt c n type old s = value c (lowerAt c n) s.input.remaining type old s := by
  cases n <;> rfl

variable {type : Ty} {layout : Layout}

theorem inPlace_record_eq {types : List Ty}
    (found : c.registry.reader type = .ok (.record types)) (olds : List Value) :
    inPlace c lower fresh type (.list olds) s =
      asRecord (eachField (inPlace c lower fresh) types olds) s := by
  rw [inPlace, found]
  have step : keeping (Value.list olds) (liftResult (.ok (Layout.record types))) s =
      .ok (Layout.record types) s := rfl
  rw [bind_of_ok step, ← fieldsInPlace_eq]

theorem inPlace_record {types : List Ty} (found : c.registry.reader type = .ok (.record types))
    (olds : List Value) {v : Value} :
    inPlace c lower fresh type (.list olds) s = .ok v t ↔ ∃ vs,
      eachField (inPlace c lower fresh) types olds s = .ok vs t ∧ v = .list vs := by
  rw [inPlace_record_eq found]
  exact asRecord_eq_ok

theorem list_of_inPlace_record {types : List Ty} {old v : Value}
    (found : c.registry.reader type = .ok (.record types))
    (run : inPlace c lower fresh type old s = .ok v t) : ∃ olds, old = .list olds := by
  have step : keeping old (liftResult (.ok (Layout.record types))) s =
      .ok (Layout.record types) s := rfl
  cases old with
  | list olds => exact ⟨olds, rfl⟩
  | _ =>
      rw [inPlace, found, bind_of_ok step] at run
      · exact (throw_eq_ok.mp run).elim
      · exact nofun

theorem inPlace_eq_byLayout (found : c.registry.reader type = .ok layout)
    (unlike : ∀ types, layout ≠ .record types) (old : Value) :
    inPlace c lower fresh type old s = byLayout c lower fresh type old layout s := by
  have step : keeping old (liftResult (.ok layout)) s = .ok layout s := rfl
  cases old with
  | list vs =>
      rw [inPlace, found, bind_of_ok step]
      cases layout with
      | record types => exact (unlike types rfl).elim
      | _ => rfl
  | _ =>
      rw [inPlace, found, bind_of_ok step]
      nofun

end Read

end Chronicle
