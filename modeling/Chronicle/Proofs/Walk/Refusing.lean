import Chronicle.Proofs.Walk.Reading
import Chronicle.Proofs.Walk.Writing

/-!
# Walks that a limit stops

A written form that was made under other limits may lie above the limits at
hand.  Writing then stops at the very place where reading the octets stops, and
both name the same limit and the same number.
-/

namespace Chronicle

open Success

/-! ## Failures -/

section Failures

variable {ε σ α β : Type} {e : ε} {s t : σ}

def Fails (e : ε) (result : EStateM.Result ε σ α) : Prop := ∃ t, result = .error e t

theorem Fails.bind {x : EStateM ε σ α} (fails : Fails e (x s)) (f : α → EStateM ε σ β) :
    Fails e ((x >>= f) s) := by
  obtain ⟨t, run⟩ := fails
  exact ⟨t, bind_of_error run f⟩

theorem Fails.bind_of_ok {x : EStateM ε σ α} {a : α} {f : α → EStateM ε σ β}
    (run : x s = .ok a t) (fails : Fails e (f a t)) : Fails e ((x >>= f) s) := by
  rw [Success.bind_of_ok run]
  exact fails

def Falters (e : WalkError) (result : EStateM.Result (WalkError × β) ReadState α) : Prop :=
  ∃ w, Fails (e, w) result

theorem Falters.bind {γ : Type} {e : WalkError} {x : Filling β α} {s : ReadState}
    (falters : Falters e (x s)) (f : α → Filling β γ) : Falters e ((x >>= f) s) := by
  obtain ⟨w, fails⟩ := falters
  exact ⟨w, fails.bind f⟩

theorem Falters.bind_of_ok {γ : Type} {e : WalkError} {x : Filling β α} {s t : ReadState} {a : α}
    {f : α → Filling β γ} (run : x s = .ok a t) (falters : Falters e (f a t)) :
    Falters e ((x >>= f) s) := by
  obtain ⟨w, fails⟩ := falters
  exact ⟨w, .bind_of_ok run fails⟩

end Failures

inductive WalkLimits.Breach (l : WalkLimits) : WalkError → Prop
  | depth : Breach l (.depthExceeded l.maxDepth)
  | length {n : Nat} : l.maxSequence < n → Breach l (.lengthLimit n l.maxSequence)

/-! ## Lengths above the limit -/

namespace Writing

variable {w : ByteWriter} {n : Nat}

theorem length_fails (above : w.limit < n) : Fails (.lengthLimit n w.limit) (length n w) := by
  refine ⟨w, ?_⟩
  simp only [length, get_bind, if_pos above]
  rfl

end Writing

namespace Write

variable {o : WalkOptions} {s : WriteState} {n : Nat}

theorem Obeys.limit_eq (obeys : Obeys o s) (above : o.limits.maxSequence < n)
    (narrow : n ≤ maxPrefix) : s.out.limit = o.limits.maxSequence := by
  rw [obeys, ByteWriter.withLimit]
  exact Nat.min_eq_left (Nat.le_trans (Nat.le_of_lt above) narrow)

theorem emit_fails {e : WalkError} {act : Writing Unit} (fails : Fails e (act s.out)) :
    Fails e (emit act s) := by
  obtain ⟨out, run⟩ := fails
  refine ⟨{ s with out }, ?_⟩
  rw [emit, run]

theorem emit_length_fails (obeys : Obeys o s) (above : o.limits.maxSequence < n)
    (narrow : n ≤ maxPrefix) :
    Fails (.lengthLimit n o.limits.maxSequence) (emit (Writing.length n) s) := by
  have limit := obeys.limit_eq above narrow
  rw [← limit] at above ⊢
  exact emit_fails (Writing.length_fails above)

theorem emit_sized_fails (obeys : Obeys o s) {bs : Bytes} (above : o.limits.maxSequence < bs.length)
    (narrow : bs.length ≤ maxPrefix) :
    Fails (.lengthLimit bs.length o.limits.maxSequence) (emit (Writing.sized bs) s) := by
  have limit := obeys.limit_eq above narrow
  rw [← limit] at above ⊢
  exact emit_fails ((Writing.length_fails above).bind _)

end Write

def Reading.Guards {α : Type} (act : Reading α) : Prop :=
  ∀ {r : ByteReader} {n : Nat} {rest : Bytes}, r.rest = leBytes 4 n ++ rest → n < leBound 4 →
    r.limit < n → Fails (.lengthLimit n r.limit) (act r)

namespace Reading

theorem length_guards : Guards length := by
  intro r n rest start small above
  have taken : word r = .ok n (r.skip (leBytes 4 n).length) :=
    word_eq_ok.mpr ⟨small, ByteReader.passes_skip start⟩
  refine .bind_of_ok taken ⟨r.skip (leBytes 4 n).length, ?_⟩
  have still : (r.skip (leBytes 4 n).length).limit < n := above
  rw [get_bind, if_pos still]
  rfl

theorem sized_guards : Guards sized :=
  fun start small above => (length_guards start small above).bind _

theorem text_guards : Guards text :=
  fun start small above => (sized_guards start small above).bind _

end Reading

namespace Read

variable {o : WalkOptions} {s : ReadState} {α β : Type} {e : WalkError}

theorem take_fails {act : Reading α} (guards : act.Guards) {n : Nat} {bs : Bytes}
    (begins : s.Begins o (leBytes 4 n ++ bs)) (narrow : n ≤ maxPrefix)
    (above : o.limits.maxSequence < n) :
    Fails (.lengthLimit n o.limits.maxSequence) (take act s) := by
  obtain ⟨rest, start⟩ := begins.starts
  have small : n < leBound 4 := Nat.lt_of_le_of_lt narrow (by decide)
  have limit := begins.limit_eq
  rw [List.append_assoc] at start
  rw [← limit] at above ⊢
  obtain ⟨input, run⟩ := guards start small above
  refine ⟨{ s with input }, ?_⟩
  rw [take, run]

/-! ## Failures of reading in place -/

theorem keeping_falters {old : β} {act : Read α} (fails : Fails e (act s)) :
    Falters e (keeping old act s) := by
  obtain ⟨t, run⟩ := fails
  refine ⟨old, t, ?_⟩
  rw [keeping, run]

theorem listSoFar_falters {acc : Array Value} {act : Read α} (fails : Fails e (act s)) :
    Falters e (listSoFar acc act s) := by
  obtain ⟨t, run⟩ := fails
  refine ⟨.list acc.toList, t, ?_⟩
  rw [listSoFar, run]

theorem discarding_fails {act : Filling α α} (falters : Falters e (act s)) :
    Fails e (discarding act s) := by
  obtain ⟨w, t, run⟩ := falters
  refine ⟨t, ?_⟩
  rw [discarding, run]

theorem asRecord_falters {act : Filling (List Value) (List Value)} (falters : Falters e (act s)) :
    Falters e (asRecord act s) := by
  obtain ⟨vs, t, run⟩ := falters
  refine ⟨.list vs, t, ?_⟩
  rw [asRecord, run]

end Read

/-! ## What is expected of the two walks -/

variable {r : Registry} {o : WalkOptions} {h : Heap} {n : Nat} {e : WalkError}

def Registry.freeContext (r : Registry) (o : WalkOptions) (h : Heap) : WriteContext where
  registry := r
  heap := h
  assets := o.assets
  maxDepth := o.limits.maxDepth

/-- Writing the value and reading the octets `bs` for it both fail with `e`, an
error that enforces a limit. -/
structure Refuses (r : Registry) (o : WalkOptions) (h : Heap) (n : Nat) (type : Ty) (v : Value)
    (met : Array Nat) (bs : Bytes) (e : WalkError) : Prop where
  breach : o.limits.Breach e
  makes : r.Makes type
  writes : ∀ {s : WriteState} (cs : Bytes), Write.Obeys o s →
    Fails e (Write.value (r.freeContext o h) (Write.lower (r.freeContext o h) n) type v
      (s.after cs met))
  reads : ∀ {s : ReadState} {f : Nat → Nat} {octets : Nat} {old : Value}, s.Begins o bs →
    s.input.remaining ≤ octets → r.Fillable type old → Mirror h f met s →
    Falters e (Read.value (r.readContext o) (Read.lowerAt (r.readContext o) n) octets type old s)

/-- The same for values one after the other: some are walked, the next one is
refused. -/
inductive RefusesAll (r : Registry) (o : WalkOptions) (h : Heap) (n : Nat) :
    List (Ty × Value) → Array Nat → Bytes → WalkError → Prop
  | here {type : Ty} {v : Value} {rest : List (Ty × Value)} {met : Array Nat} {bs : Bytes}
      {e : WalkError} (cs : Bytes) : Refuses r o h n type v met bs e →
      RefusesAll r o h n ((type, v) :: rest) met (bs ++ cs) e
  | later {type : Ty} {v : Value} {rest : List (Ty × Value)} {met met' : Array Nat}
      {bs cs : Bytes} {e : WalkError} : Written r o h n type v met bs met' →
      Restores r o h n type v met bs met' → RefusesAll r o h n rest met' cs e →
      RefusesAll r o h n ((type, v) :: rest) met (bs ++ cs) e

theorem RefusesAll.breach {ps : List (Ty × Value)} {met : Array Nat} {bs : Bytes}
    (all : RefusesAll r o h n ps met bs e) : o.limits.Breach e := by
  induction all with
  | here _ refuses => exact refuses.breach
  | later _ _ _ ih => exact ih

theorem Write.each_fails {ps : List (Ty × Value)} {met : Array Nat} {bs : Bytes} {s : WriteState}
    (all : RefusesAll r o h n ps met bs e) (cs : Bytes) (obeys : Obeys o s) :
    Fails e (each (r.freeContext o h) (lower (r.freeContext o h) n) ps (s.after cs met)) := by
  induction all generalizing cs with
  | here _ refuses => exact (refuses.writes cs obeys).bind _
  | later written _ _ ih =>
      have run := value_of_written (c := r.freeContext o h) rfl rfl obeys cs written
      exact .bind_of_ok run (ih _)

namespace Read

variable {octets : Nat} {next : Ty → Read Value} {met : Array Nat} {bs : Bytes} {s : ReadState}
  {f : Nat → Nat}

def Declines (r : Registry) (o : WalkOptions) (h : Heap) (n octets : Nat)
    (next : Ty → Read Value) : Prop :=
  ∀ {type : Ty} {v : Value} {met : Array Nat} {bs : Bytes} {s : ReadState} {f : Nat → Nat}
    {e : WalkError}, Refuses r o h n type v met bs e → s.Begins o bs →
    s.input.remaining ≤ octets → Mirror h f met s → Fails e (next type s)

def Balks (r : Registry) (o : WalkOptions) (h : Heap) (n octets : Nat) (walk : Walker) : Prop :=
  ∀ {type : Ty} {v old : Value} {met : Array Nat} {bs : Bytes} {s : ReadState} {f : Nat → Nat}
    {e : WalkError}, Refuses r o h n type v met bs e → s.Begins o bs →
    s.input.remaining ≤ octets → r.Fillable type old → Mirror h f met s →
    Falters e (walk type old s)

theorem balks_value :
    Balks r o h n octets (value (r.readContext o) (lowerAt (r.readContext o) n) octets) :=
  fun refuses begins room fillable mirror => refuses.reads begins room fillable mirror

theorem balks_valueAt : Balks r o h n octets (valueAt (r.readContext o) n) := by
  intro type v old met bs s f e refuses begins _ fillable mirror
  rw [valueAt_eq]
  exact refuses.reads begins (Nat.le_refl _) fillable mirror

theorem create_fails {walk : Walker} (balks : Balks r o h n octets walk) {type : Ty} {v : Value}
    (refuses : Refuses r o h n type v met bs e) (begins : s.Begins o bs)
    (room : s.input.remaining ≤ octets) (mirror : Mirror h f met s) :
    Fails e (create (r.readContext o) walk type s) := by
  obtain ⟨blank, heap, made, fillable, grown⟩ := refuses.makes.makeBlank_eq_ok s.heap
  have taken : make (r.makeBlank type) s = .ok blank { s with heap } :=
    make_eq_ok.mpr ⟨heap, made, rfl⟩
  refine .bind_of_ok taken (discarding_fails ?_)
  exact balks refuses ⟨begins.starts, begins.limit_eq⟩ room fillable (mirror.move grown rfl)

theorem declines_create : Declines r o h n octets
    (create (r.readContext o) (value (r.readContext o) (lowerAt (r.readContext o) n) octets)) :=
  fun refuses begins room mirror => create_fails balks_value refuses begins room mirror

/-! ## Lists -/

theorem items_falters {item : Ty} (renews : Renews r o h n octets next)
    (declines : Declines r o h n octets next) {vs : List Value}
    (all : RefusesAll r o h n (vs.map (item, ·)) met bs e) (acc : Array Value)
    (begins : s.Begins o bs) (room : s.input.remaining ≤ octets) (mirror : Mirror h f met s) :
    Falters e (items (next item) vs.length acc s) := by
  induction vs generalizing s f met bs acc with
  | nil => cases all
  | cons v rest ih =>
      cases all with
      | here _ refuses =>
          exact (listSoFar_falters (declines refuses begins.left room mirror)).bind _
      | later _ first all =>
          obtain ⟨f₁, t₁, run, restored⟩ := renews first begins.left room mirror
          exact .bind_of_ok (listSoFar_eq_ok.mpr run) (ih all _ (begins.right restored.passes)
            (restored.room room) restored.mirror)

theorem ascendingItems_falters {item : Ty} {container : String} {order : KeyOrder}
    (renews : Renews r o h n octets next) (declines : Declines r o h n octets next)
    {vs : List Value} (plain : ∀ v ∈ vs, v.orderingKey = v)
    (all : RefusesAll r o h n (vs.map (item, ·)) met bs e) (acc : Array Value)
    (ascending : Ascending order (acc.toList ++ vs)) (begins : s.Begins o bs)
    (room : s.input.remaining ≤ octets) (mirror : Mirror h f met s) :
    Falters e (ascendingItems container order (next item) vs.length acc s) := by
  induction vs generalizing s f met bs acc with
  | nil => cases all
  | cons v rest ih =>
      cases all with
      | here _ refuses =>
          exact (listSoFar_falters (declines refuses begins.left room mirror)).bind _
      | later _ first all =>
          obtain ⟨f₁, t₁, run, restored⟩ := renews first begins.left room mirror
          have in_turn := ascend_of_ascending (s := t₁) ascending container
          have closed := ascending.closed v (by simp)
          rw [plain v List.mem_cons_self] at in_turn closed
          rw [Value.rename_of_closed closed] at run
          refine .bind_of_ok (listSoFar_eq_ok.mpr run) ?_
          refine .bind_of_ok (listSoFar_eq_ok.mpr in_turn) ?_
          exact ih (fun w member => plain w (List.mem_cons_of_mem _ member)) all (acc.push v)
            (ascending.replace rfl) (begins.right restored.passes) (restored.room room)
            restored.mirror

theorem ascendingEntries_falters {keyType valueType : Ty} {container : String} {order : KeyOrder}
    (renews : Renews r o h n octets next) (declines : Declines r o h n octets next)
    {entries : List Value} (shaped : ∀ e ∈ entries, e.IsEntry)
    (all : RefusesAll r o h n (entries.flatMap (Layout.entryParts keyType valueType)) met bs e)
    (acc : Array Value) (ascending : Ascending order (acc.toList ++ entries))
    (begins : s.Begins o bs) (room : s.input.remaining ≤ octets) (mirror : Mirror h f met s) :
    Falters e
      (ascendingEntries container order (next keyType) (next valueType) entries.length acc s) := by
  induction entries generalizing s f met bs acc with
  | nil => cases all
  | cons entry rest ih =>
      obtain ⟨k, v, rfl⟩ := shaped entry List.mem_cons_self
      cases all with
      | here _ refuses =>
          exact (listSoFar_falters (declines refuses begins.left room mirror)).bind _
      | later _ first all =>
          obtain ⟨f₁, t₁, run, restored⟩ := renews first begins.left room mirror
          have in_turn := ascend_of_ascending (s := t₁) ascending container
          have unchanged : k.rename f₁ = k :=
            Value.rename_of_closed (ascending.closed (.entry k v) (by simp))
          rw [unchanged] at run
          have begins₁ := begins.right restored.passes
          have room₁ := restored.room room
          refine .bind_of_ok (listSoFar_eq_ok.mpr run) ?_
          refine .bind_of_ok (listSoFar_eq_ok.mpr in_turn) ?_
          cases all with
          | here _ refuses =>
              exact (listSoFar_falters (declines refuses begins₁.left room₁ restored.mirror)).bind _
          | later _ second all =>
              obtain ⟨f₂, t₂, run₂, restored₂⟩ := renews second begins₁.left room₁ restored.mirror
              refine .bind_of_ok (listSoFar_eq_ok.mpr run₂) ?_
              exact ih (fun w member => shaped w (List.mem_cons_of_mem _ member)) all _
                (ascending.replace rfl) (begins₁.right restored₂.passes) (restored₂.room room₁)
                restored₂.mirror

/-! ## Fields -/

theorem eachField_falters {walk : Walker} (fills : Fills r o h n octets walk)
    (balks : Balks r o h n octets walk) {types : List Ty} {vs olds : List Value}
    (full : types.length = vs.length) (all : RefusesAll r o h n (types.zip vs) met bs e)
    (fillable : r.FillableAll types olds) (begins : s.Begins o bs)
    (room : s.input.remaining ≤ octets) (mirror : Mirror h f met s) :
    Falters e (eachField walk types olds s) := by
  induction vs generalizing types olds s f met bs with
  | nil =>
      rw [List.zip_nil_right] at all
      cases all
  | cons v rest ih =>
      cases fillable with
      | nil => cases all
      | @cons type types blank olds fits fillable =>
          rw [eachField_cons]
          cases all with
          | here _ refuses =>
              obtain ⟨w, t, run⟩ := balks refuses begins.left room fits mirror
              rw [run]
              exact ⟨_, t, rfl⟩
          | later _ first all =>
              obtain ⟨f₁, t₁, run, restored⟩ := fills first begins.left room fits mirror
              obtain ⟨ws, t, run₂⟩ := ih (Nat.succ.inj full) all fillable
                (begins.right restored.passes) (restored.room room) restored.mirror
              rw [run]
              simp only [run₂]
              exact ⟨_, t, rfl⟩

/-! ## Objects -/

/-- A new object is made and bound before a limit can stop the walk into its
content. -/
theorem object_fails {c : ReadContext} {lower : Lower} {content : Ty} {blank : Value} {heap : Heap}
    (made : c.registry.makeBlank content s.heap = .ok blank heap)
    (falters : Falters e (descend c lower blank (fun walk => walk content blank)
      { s with
        heap := heap.push ⟨content, blank⟩
        bound := s.bound.push heap.size
        filling := heap.size :: s.filling })) :
    Fails e (object c lower (nextNumber s) content s) := by
  have blanked : make (c.registry.makeBlank content) s = .ok blank { s with heap } :=
    make_eq_ok.mpr ⟨heap, made, rfl⟩
  have placed : make (modifyGet fun h : Heap => h.allocate content blank) { s with heap } =
      .ok heap.size { s with heap := heap.push ⟨content, blank⟩ } := rfl
  refine .bind_of_ok blanked (.bind_of_ok placed ?_)
  refine .bind_of_ok (bind_number_eq_ok (u := ()).mpr ⟨rfl, rfl⟩) (.bind ?_ _)
  obtain ⟨w, t, run⟩ := falters
  refine ⟨{ t with heap := t.heap.fill heap.size w, filling := s.filling }, ?_⟩
  have found : (heap.push ⟨content, blank⟩)[heap.size]? = some ⟨content, blank⟩ :=
    Array.getElem?_push_size
  simp only [fillObject, found, run]

end Read

end Chronicle
