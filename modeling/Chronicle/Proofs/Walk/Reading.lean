import Chronicle.Proofs.Walk.Faithful
import Chronicle.Proofs.Walk.ReadSteps
import Mathlib.Logic.Function.Basic

/-!
# Reading the written form

A walk that reads succeeds on the written form of a faithful value, whatever
follows it, and rebuilds the value.  The objects bound stand one to one for the
objects met by the writer, at the same numbers, and once an object is bound,
later references lead to it even while its content is still being read.
-/

namespace Chronicle

open Success

variable {r : Registry} {o : WalkOptions} {h : Heap}

/-! ## The two tables -/

theorem ByteReader.Passes.remaining_le {r r' : ByteReader} (passes : r.Passes bs r') :
    r'.remaining + bs.length = r.remaining := by
  rw [remaining, remaining, passes.length_eq, Nat.add_comm]

/-- The objects bound are the images of those met, in the same order, apart
from each other and of the same types. -/
structure Mirror (h : Heap) (f : Nat → Nat) (met : Array Nat) (s : ReadState) : Prop where
  bound_eq : s.bound = met.map f
  few : met.size ≤ leBound 4
  apart : ∀ a ∈ met, ∀ b ∈ met, f a = f b → a = b
  typed : ∀ id ∈ met, ∃ cell cell', h[id]? = some cell ∧ s.heap[f id]? = some cell' ∧
    cell'.type = cell.type

/-- What a walk over `bs` did: every object met on the way was bound and has the
content of its original, and what was there before stays. -/
structure Restored (h : Heap) (f : Nat → Nat) (met : Array Nat) (s : ReadState) (bs : Bytes)
    (f' : Nat → Nat) (met' : Array Nat) (t : ReadState) : Prop where
  passes : s.input.Passes bs t.input
  grows : ∀ id ∈ met, id ∈ met'
  agrees : ∀ id ∈ met, f' id = f id
  mirror : Mirror h f' met' t
  heap_extends : s.heap.Extends t.heap
  copied : ∀ id ∈ met', id ∉ met → ∃ cell, h[id]? = some cell ∧
    (∀ k ∈ cell.content.references, k ∈ met') ∧
    t.heap[f' id]? = some { cell with content := cell.content.rename f' }

variable {f f' f'' : Nat → Nat} {met met' met'' : Array Nat} {s t u : ReadState} {bs cs : Bytes}

theorem Mirror.move (mirror : Mirror h f met s) (grown : s.heap.Extends t.heap)
    (bound : t.bound = s.bound) : Mirror h f met t where
  bound_eq := bound.trans mirror.bound_eq
  few := mirror.few
  apart := mirror.apart
  typed := by
    intro id member
    obtain ⟨cell, cell', source, target, same⟩ := mirror.typed id member
    exact ⟨cell, cell', source, grown _ _ target, same⟩

namespace Restored

theorem of_consumes (mirror : Mirror h f met s) (moved : s.Consumes bs t) :
    Restored h f met s bs f met t where
  passes := moved.passes
  grows := fun _ member => member
  agrees := fun _ _ => rfl
  mirror := mirror.move (by rw [moved.heap_eq]; exact .refl _) moved.bound_eq
  heap_extends := by
    rw [moved.heap_eq]
    exact .refl _
  copied := fun _ member new => absurd member new

theorem of_made (mirror : Mirror h f met s) {heap : Heap} (grown : s.heap.Extends heap) :
    Restored h f met s [] f met { s with heap } where
  passes := .refl _
  grows := fun _ member => member
  agrees := fun _ _ => rfl
  mirror := mirror.move grown rfl
  heap_extends := grown
  copied := fun _ member new => absurd member new

theorem rename_eq (later : Restored h f' met' t cs f'' met'' u) {v : Value}
    (known : ∀ id ∈ v.references, id ∈ met') : v.rename f' = v.rename f'' :=
  Value.rename_congr fun id member => (later.agrees id (known id member)).symm

theorem trans (first : Restored h f met s bs f' met' t)
    (second : Restored h f' met' t cs f'' met'' u) :
    Restored h f met s (bs ++ cs) f'' met'' u where
  passes := first.passes.trans second.passes
  grows := fun id member => second.grows id (first.grows id member)
  agrees := fun id member =>
    (second.agrees id (first.grows id member)).trans (first.agrees id member)
  mirror := second.mirror
  heap_extends := first.heap_extends.trans second.heap_extends
  copied := by
    intro id member new
    by_cases early : id ∈ met'
    · obtain ⟨cell, source, known, target⟩ := first.copied id early new
      refine ⟨cell, source, fun k inside => second.grows k (known k inside), ?_⟩
      rw [second.agrees id early, ← second.rename_eq known]
      exact second.heap_extends _ _ target
    · exact second.copied id member early

theorem room (restored : Restored h f met s bs f' met' t) {octets : Nat}
    (room : s.input.remaining ≤ octets) : t.input.remaining ≤ octets := by
  have := restored.passes.remaining_le
  omega

end Restored

/-! ## What is expected of a walk -/

structure ReadState.Begins (s : ReadState) (o : WalkOptions) (bs : Bytes) : Prop where
  starts : ∃ rest, s.input.rest = bs ++ rest
  limit_eq : s.input.limit = o.limits.maxSequence

namespace ReadState.Begins

theorem left (begins : s.Begins o (bs ++ cs)) : s.Begins o bs where
  starts := by
    obtain ⟨rest, start⟩ := begins.starts
    exact ⟨cs ++ rest, by rw [start, List.append_assoc]⟩
  limit_eq := begins.limit_eq

theorem right (begins : s.Begins o (bs ++ cs)) (passes : s.input.Passes bs t.input) :
    t.Begins o cs where
  starts := by
    obtain ⟨rest, start⟩ := begins.starts
    rw [passes.rest_eq, List.append_assoc] at start
    exact ⟨rest, List.append_cancel_left start⟩
  limit_eq := passes.limit_eq.trans begins.limit_eq

theorem consumes (begins : s.Begins o bs) : ∃ t, s.Consumes bs t :=
  begins.starts.elim fun _ start => ReadState.exists_consumes start

end ReadState.Begins

/-- Reading the octets rebuilds the value in the place of any value that can be
filled, from any state that mirrors the writer's. -/
structure Restores (r : Registry) (o : WalkOptions) (h : Heap) (n : Nat) (type : Ty) (v : Value)
    (met : Array Nat) (bs : Bytes) (met' : Array Nat) : Prop where
  makes : r.Makes type
  known : ∀ id ∈ v.references, id ∈ met'
  fills : ∀ {s : ReadState} {f : Nat → Nat} {octets : Nat} {old : Value}, s.Begins o bs →
    s.input.remaining ≤ octets → r.Fillable type old → Mirror h f met s →
    ∃ f' t, Read.value (r.readContext o) (Read.lowerAt (r.readContext o) n) octets type old s =
      .ok (v.rename f') t ∧ Restored h f met s bs f' met' t

inductive RestoresAll (r : Registry) (o : WalkOptions) (h : Heap) (n : Nat) :
    List (Ty × Value) → Array Nat → Bytes → Array Nat → Prop
  | nil {met : Array Nat} : RestoresAll r o h n [] met [] met
  | cons {type : Ty} {v : Value} {rest : List (Ty × Value)} {met met' met'' : Array Nat}
      {bs cs : Bytes} :
      Restores r o h n type v met bs met' → RestoresAll r o h n rest met' cs met'' →
      RestoresAll r o h n ((type, v) :: rest) met (bs ++ cs) met''

namespace Read

variable {n octets : Nat} {type : Ty} {v : Value}

def Renews (r : Registry) (o : WalkOptions) (h : Heap) (n octets : Nat)
    (next : Ty → Read Value) : Prop :=
  ∀ {type : Ty} {v : Value} {met met' : Array Nat} {bs : Bytes} {s : ReadState} {f : Nat → Nat},
    Restores r o h n type v met bs met' → s.Begins o bs → s.input.remaining ≤ octets →
    Mirror h f met s →
    ∃ f' t, next type s = .ok (v.rename f') t ∧ Restored h f met s bs f' met' t

def Fills (r : Registry) (o : WalkOptions) (h : Heap) (n octets : Nat) (walk : Walker) : Prop :=
  ∀ {type : Ty} {v old : Value} {met met' : Array Nat} {bs : Bytes} {s : ReadState}
    {f : Nat → Nat}, Restores r o h n type v met bs met' → s.Begins o bs →
    s.input.remaining ≤ octets → r.Fillable type old → Mirror h f met s →
    ∃ f' t, walk type old s = .ok (v.rename f') t ∧ Restored h f met s bs f' met' t

theorem fills_value :
    Fills r o h n octets (value (r.readContext o) (lowerAt (r.readContext o) n) octets) :=
  fun restores begins room fillable mirror => restores.fills begins room fillable mirror

theorem fills_valueAt : Fills r o h n octets (valueAt (r.readContext o) n) := by
  intro type v old met met' bs s f restores begins _ fillable mirror
  rw [valueAt_eq]
  exact restores.fills begins (Nat.le_refl _) fillable mirror

theorem renews_create : Renews r o h n octets
    (create (r.readContext o) (value (r.readContext o) (lowerAt (r.readContext o) n) octets)) := by
  intro type v met met' bs s f restores begins room mirror
  obtain ⟨blank, heap, made, fillable, grown⟩ := restores.makes.makeBlank_eq_ok s.heap
  have prepared : Restored h f met s [] f met { s with heap } := .of_made mirror grown
  obtain ⟨f', t, run, restored⟩ :=
    restores.fills (s := { s with heap }) ⟨begins.starts, begins.limit_eq⟩ room fillable
      prepared.mirror
  exact ⟨f', t, create_eq_ok.mpr ⟨blank, heap, made, run⟩, prepared.trans restored⟩

/-! ## Lists -/

variable {next : Ty → Read Value} {acc : Array Value}

theorem items_restored {item : Ty} (renews : Renews r o h n octets next) {vs : List Value}
    (all : RestoresAll r o h n (vs.map (item, ·)) met bs met') (acc : Array Value)
    (begins : s.Begins o bs) (room : s.input.remaining ≤ octets) (mirror : Mirror h f met s) :
    ∃ f' t, items (next item) vs.length acc s =
        .ok (.list (acc.toList ++ vs.map (Value.rename f'))) t ∧
      Restored h f met s bs f' met' t := by
  induction vs generalizing s f met bs acc with
  | nil =>
      cases all
      refine ⟨f, s, ?_, .of_consumes mirror (ReadState.consumes_nil.mpr rfl)⟩
      rw [List.map_nil, List.append_nil]
      rfl
  | cons v rest ih =>
      cases all with
      | cons first all =>
          obtain ⟨f₁, t₁, run, restored⟩ := renews first begins.left room mirror
          obtain ⟨f₂, t₂, run₂, restored₂⟩ := ih all (acc.push (v.rename f₁))
            (begins.right restored.passes) (restored.room room) restored.mirror
          refine ⟨f₂, t₂, ?_, restored.trans restored₂⟩
          refine bind_eq_ok.mpr ⟨_, t₁, listSoFar_eq_ok.mpr run, ?_⟩
          rw [run₂, restored₂.rename_eq first.known]
          simp

structure Ascending (order : KeyOrder) (items : List Value) : Prop where
  chain : (items.map Value.orderingKey).IsChain order.Less
  closed : ∀ e ∈ items, e.orderingKey.references = []

theorem ascending_of_set {item : Ty} {order : KeyOrder} {vs : List Value}
    (carries : (Layout.set item order).Carries o (.list vs))
    (plain : ∀ v ∈ vs, v.orderingKey = v) : Ascending order vs := by
  have keys : vs.map Value.orderingKey = vs := (List.map_congr_left plain).trans (List.map_id _)
  cases carries with
  | set _ _ chain closed =>
      refine ⟨by rw [keys]; exact chain, fun v member => ?_⟩
      rw [plain v member]
      exact closed v member

theorem ascending_of_map {keyType valueType : Ty} {order : KeyOrder} {entries : List Value}
    (carries : (Layout.map keyType valueType order).Carries o (.list entries)) :
    Ascending order entries := by
  cases carries with
  | map _ _ _ _ chain closed => exact ⟨(List.isChain_map _).mpr chain, closed⟩

theorem ascend_of_ascending {order : KeyOrder} {e : Value} {rest : List Value}
    (ascending : Ascending order (acc.toList ++ e :: rest)) (container : String) :
    ascend container order acc e.orderingKey s = .ok () s := by
  refine ascend_eq_ok.mpr ⟨fun last found => ?_, rfl⟩
  obtain ⟨front, rfl⟩ := Array.back?_eq_some_iff.mp found
  have chain : (front.toList.map Value.orderingKey ++
      last.orderingKey :: e.orderingKey :: rest.map Value.orderingKey).IsChain order.Less := by
    simpa using ascending.chain
  rw [order.closed (ascending.closed last (by simp)) (ascending.closed e (by simp))]
  exact (List.isChain_cons_cons.mp (List.isChain_append.mp chain).2.1).1

theorem Ascending.replace {order : KeyOrder} {e e' : Value} {rest : List Value}
    (ascending : Ascending order (acc.toList ++ e :: rest))
    (same : e'.orderingKey = e.orderingKey) : Ascending order ((acc.push e').toList ++ rest) := by
  refine ⟨by simpa [same] using ascending.chain, fun k member => ?_⟩
  have inside : k ∈ acc.toList ∨ k = e' ∨ k ∈ rest := by simpa using member
  rcases inside with early | rfl | late
  · exact ascending.closed k (by simp [early])
  · exact same ▸ ascending.closed e (by simp)
  · exact ascending.closed k (by simp [late])

theorem ascendingItems_restored {item : Ty} {container : String} {order : KeyOrder}
    (renews : Renews r o h n octets next) {vs : List Value}
    (plain : ∀ v ∈ vs, v.orderingKey = v)
    (all : RestoresAll r o h n (vs.map (item, ·)) met bs met') (acc : Array Value)
    (ascending : Ascending order (acc.toList ++ vs)) (begins : s.Begins o bs)
    (room : s.input.remaining ≤ octets) (mirror : Mirror h f met s) :
    ∃ f' t, ascendingItems container order (next item) vs.length acc s =
        .ok (.list (acc.toList ++ vs)) t ∧ Restored h f met s bs f' met' t := by
  induction vs generalizing s f met bs acc with
  | nil =>
      cases all
      refine ⟨f, s, ?_, .of_consumes mirror (ReadState.consumes_nil.mpr rfl)⟩
      rw [List.append_nil]
      rfl
  | cons v rest ih =>
      cases all with
      | cons first all =>
          obtain ⟨f₁, t₁, run, restored⟩ := renews first begins.left room mirror
          have in_turn := ascend_of_ascending (s := t₁) ascending container
          have closed := ascending.closed v (by simp)
          rw [plain v List.mem_cons_self] at in_turn closed
          rw [Value.rename_of_closed closed] at run
          obtain ⟨f₂, t₂, run₂, restored₂⟩ := ih
            (fun w member => plain w (List.mem_cons_of_mem _ member)) all (acc.push v)
            (ascending.replace rfl) (begins.right restored.passes) (restored.room room)
            restored.mirror
          refine ⟨f₂, t₂, ?_, restored.trans restored₂⟩
          refine bind_eq_ok.mpr ⟨v, t₁, listSoFar_eq_ok.mpr run, ?_⟩
          refine bind_eq_ok.mpr ⟨(), t₁, listSoFar_eq_ok.mpr in_turn, ?_⟩
          rw [run₂]
          simp

theorem ascendingEntries_restored {keyType valueType : Ty} {container : String}
    {order : KeyOrder} (renews : Renews r o h n octets next) {entries : List Value}
    (shaped : ∀ e ∈ entries, e.IsEntry)
    (all : RestoresAll r o h n (entries.flatMap (Layout.entryParts keyType valueType)) met bs met')
    (acc : Array Value) (ascending : Ascending order (acc.toList ++ entries))
    (begins : s.Begins o bs) (room : s.input.remaining ≤ octets) (mirror : Mirror h f met s) :
    ∃ f' t, ascendingEntries container order (next keyType) (next valueType) entries.length acc s =
        .ok (.list (acc.toList ++ entries.map (Value.rename f'))) t ∧
      Restored h f met s bs f' met' t := by
  induction entries generalizing s f met bs acc with
  | nil =>
      cases all
      refine ⟨f, s, ?_, .of_consumes mirror (ReadState.consumes_nil.mpr rfl)⟩
      rw [List.map_nil, List.append_nil]
      rfl
  | cons e rest ih =>
      obtain ⟨k, v, rfl⟩ := shaped e List.mem_cons_self
      have unchanged : ∀ g, k.rename g = k := fun g =>
        Value.rename_of_closed (ascending.closed (.entry k v) (by simp))
      cases all with
      | cons first all =>
          cases all with
          | cons second all =>
              obtain ⟨f₁, t₁, run, restored⟩ := renews first begins.left room mirror
              rw [unchanged] at run
              have begins₁ := begins.right restored.passes
              obtain ⟨f₂, t₂, run₂, restored₂⟩ :=
                renews second begins₁.left (restored.room room) restored.mirror
              obtain ⟨f₃, t₃, run₃, restored₃⟩ := ih
                (fun e member => shaped e (List.mem_cons_of_mem _ member)) all
                (acc.push (.entry k (v.rename f₂))) (ascending.replace rfl)
                (begins₁.right restored₂.passes) (restored₂.room (restored.room room))
                restored₂.mirror
              refine ⟨f₃, t₃, ?_, restored.trans (restored₂.trans restored₃)⟩
              have in_turn := ascend_of_ascending (s := t₁) ascending container
              refine bind_eq_ok.mpr ⟨k, t₁, listSoFar_eq_ok.mpr run, ?_⟩
              refine bind_eq_ok.mpr ⟨(), t₁, listSoFar_eq_ok.mpr in_turn, ?_⟩
              refine bind_eq_ok.mpr ⟨_, t₂, listSoFar_eq_ok.mpr run₂, ?_⟩
              rw [run₃, restored₃.rename_eq second.known]
              simp [Value.rename, unchanged]

/-! ## Fields -/

theorem eachField_restored {walk : Walker} (fills : Fills r o h n octets walk)
    {types : List Ty} {vs olds : List Value} (full : types.length = vs.length)
    (all : RestoresAll r o h n (types.zip vs) met bs met') (fillable : r.FillableAll types olds)
    (begins : s.Begins o bs) (room : s.input.remaining ≤ octets) (mirror : Mirror h f met s) :
    ∃ f' t, eachField walk types olds s = .ok (vs.map (Value.rename f')) t ∧
      Restored h f met s bs f' met' t := by
  induction vs generalizing types olds s f met bs with
  | nil =>
      rw [List.length_nil, List.length_eq_zero_iff] at full
      subst full
      cases fillable
      cases all
      exact ⟨f, s, rfl, .of_consumes mirror (ReadState.consumes_nil.mpr rfl)⟩
  | cons v rest ih =>
      cases fillable with
      | nil => simp at full
      | cons blank fillable =>
          cases all with
          | cons first all =>
              have shorter := Nat.succ.inj full
              obtain ⟨f₁, t₁, run, restored⟩ := fills first begins.left room blank mirror
              obtain ⟨f₂, t₂, run₂, restored₂⟩ := ih shorter all fillable
                (begins.right restored.passes) (restored.room room) restored.mirror
              refine ⟨f₂, t₂, ?_, restored.trans restored₂⟩
              refine eachField_cons_eq_ok.mpr ⟨_, t₁, _, run, run₂, ?_⟩
              rw [List.map_cons, restored₂.rename_eq first.known]

/-! ## Values without parts -/

theorem admitted (begins : s.Begins o bs) {count : Nat} (admits : o.Admits count) :
    count ≤ s.input.limit ∧ count < leBound 4 :=
  ⟨by rw [begins.limit_eq]; exact admits.1, admits.lt_leBound⟩

theorem byLayout_of_encodes {layout : Layout} {lower : Lower} {fresh : Ty → Read Value}
    {old : Value} (encodes : layout.Encodes o v bs) (carries : layout.Carries o v)
    (found : r.reader type = .ok layout) (fillable : r.Fillable type old)
    (begins : s.Begins o bs) :
    ∃ t, byLayout (r.readContext o) lower fresh type old layout s = .ok v t ∧
      s.Consumes bs t := by
  obtain ⟨t, moved⟩ := begins.consumes
  refine ⟨t, ?_, moved⟩
  cases encodes with
  | nothing v =>
      cases carries with
      | nothing =>
          obtain rfl := ReadState.consumes_nil.mp moved
          cases fillable with
          | nothing => rfl
          | record other _ | nested other _ => rw [other] at found; injection found; contradiction
          | replaced _ other replaces =>
              rw [other] at found
              injection found with same
              rw [same] at replaces
              exact replaces.elim
  | bool b => exact bind_eq_ok.mpr ⟨b, t, keeping_eq_ok.mpr (take_bool.mpr moved), rfl⟩
  | scalar k n =>
      cases carries with
      | scalar holds =>
          exact bind_eq_ok.mpr ⟨n, t, keeping_eq_ok.mpr (take_scalar.mpr ⟨holds, moved⟩), rfl⟩
  | text text admits =>
      exact bind_eq_ok.mpr ⟨text, t,
        keeping_eq_ok.mpr (take_text.mpr ⟨admitted begins admits, moved⟩), rfl⟩
  | octets octets admits =>
      exact bind_eq_ok.mpr ⟨octets, t,
        keeping_eq_ok.mpr (take_sized.mpr ⟨admitted begins admits, moved⟩), rfl⟩
  | absent item =>
      exact keeping_eq_ok.mpr (bind_eq_ok.mpr ⟨0, t, take_octet.mpr moved, rfl⟩)
  | @packed format d blob ordered encoded admits =>
      cases carries with
      | packed decodes =>
          refine keeping_eq_ok.mpr (bind_eq_ok.mpr ⟨blob, t,
            take_sized.mpr ⟨admitted begins admits, moved⟩, ?_⟩)
          rw [decodes blob encoded]
          rfl
  | @asset content handle resolver path resolved named admits =>
      cases carries with
      | asset loads =>
          refine keeping_eq_ok.mpr (bind_eq_ok.mpr ⟨path, t,
            take_text.mpr ⟨admitted begins admits, moved⟩, ?_⟩)
          simp only [Registry.readContext, resolved, loads resolver path resolved named,
            ↓reduceIte]
          rfl

/-! ## Objects -/

variable {id : Nat} {cell : Cell}

theorem mirror_push (mirror : Mirror h f met s) {heap : Heap} (blank : Value)
    (grown : s.heap.Extends heap) (found : h[id]? = some cell) (new : id ∉ met)
    (few : met.size < leBound 4) :
    Mirror h (Function.update f id heap.size) (met.push id)
      { s with
        heap := heap.push ⟨cell.type, blank⟩
        bound := s.bound.push heap.size
        filling := heap.size :: s.filling } := by
  have old : ∀ k ∈ met, Function.update f id heap.size k = f k := fun k member =>
    Function.update_of_ne (fun same : k = id => new (same ▸ member)) _ _
  have inside : ∀ k ∈ met, f k < heap.size := by
    intro k member
    obtain ⟨_, cell', _, target, _⟩ := mirror.typed k member
    exact (Array.getElem?_eq_some_iff.mp (grown _ _ target)).1
  constructor
  · have images : met.map (Function.update f id heap.size) = met.map f :=
      Array.map_congr_left old
    rw [Array.map_push, images, Function.update_self, mirror.bound_eq]
  · rw [Array.size_push]
    exact few
  · intro a memberA b memberB same
    rcases Array.mem_push.mp memberA with metA | rfl <;>
      rcases Array.mem_push.mp memberB with metB | rfl
    · rw [old a metA, old b metB] at same
      exact mirror.apart a metA b metB same
    · rw [old a metA, Function.update_self] at same
      exact absurd same (Nat.ne_of_lt (inside a metA))
    · rw [old b metB, Function.update_self] at same
      exact absurd same.symm (Nat.ne_of_lt (inside b metB))
    · rfl
  · intro k member
    rcases Array.mem_push.mp member with member | rfl
    · obtain ⟨source, target, here, there, same⟩ := mirror.typed k member
      refine ⟨source, target, here, ?_, same⟩
      rw [old k member]
      exact heap.extends_allocate cell.type blank _ _ (grown _ _ there)
    · refine ⟨cell, ⟨cell.type, blank⟩, found, ?_, rfl⟩
      rw [Function.update_self]
      exact Array.getElem?_push_size

theorem object_restored {number : Nat}
    (content : Restores r o h n cell.type cell.content (met.push id) bs met')
    (found : h[id]? = some cell) (new : id ∉ met) (few : met.size < leBound 4)
    (next_number : number = nextNumber s) (begins : s.Begins o bs) (mirror : Mirror h f met s) :
    ∃ f' t, object (r.readContext o) (lowerAt (r.readContext o) (n + 1)) number cell.type s =
      .ok (.object (f' id)) t ∧ Restored h f met s bs f' met' t := by
  obtain ⟨blank, heap, made, fillable, grown⟩ := content.makes.makeBlank_eq_ok s.heap
  have bound := mirror_push mirror blank grown found new few
  obtain ⟨f', t, run, restored⟩ := content.fills
    (s := { s with
      heap := heap.push ⟨cell.type, blank⟩
      bound := s.bound.push heap.size
      filling := heap.size :: s.filling })
    ⟨begins.starts, begins.limit_eq⟩ (Nat.le_refl _) fillable bound
  have here : f' id = heap.size := by
    rw [restored.agrees id Array.mem_push_self, Function.update_self]
  have old : ∀ k ∈ met, f' k = f k := fun k member => by
    rw [restored.agrees k (Array.mem_push_of_mem _ member)]
    exact Function.update_of_ne (fun same : k = id => new (same ▸ member)) _ _
  have placed : t.heap[heap.size]? = some ⟨cell.type, blank⟩ :=
    restored.heap_extends _ _ Array.getElem?_push_size
  refine ⟨f', { t with
    heap := t.heap.fill heap.size (cell.content.rename f')
    filling := s.filling }, ?_, ?_⟩
  · refine object_eq_ok.mpr ⟨blank, heap, _, _, t, made, next_number, rfl, ?_, by rw [here], rfl⟩
    rw [valueAt_eq]
    exact run
  · constructor
    · exact restored.passes
    · exact fun k member => restored.grows k (Array.mem_push_of_mem _ member)
    · exact old
    · refine ⟨restored.mirror.bound_eq, restored.mirror.few, restored.mirror.apart, ?_⟩
      intro k member
      obtain ⟨source, target, here, there, same⟩ := restored.mirror.typed k member
      obtain ⟨filled, there, kept⟩ := Heap.exists_fill there heap.size (cell.content.rename f')
      exact ⟨source, filled, here, there, kept.trans same⟩
    · exact Heap.extends_fill grown restored.heap_extends _
    · intro k member missing
      by_cases same : k = id
      · subst same
        refine ⟨cell, found, content.known, ?_⟩
        rw [here]
        exact Heap.fill_self placed _
      · have unmet : k ∉ met.push id := fun member =>
          (Array.mem_push.mp member).elim missing same
        obtain ⟨source, here', known, there⟩ := restored.copied k member unmet
        refine ⟨source, here', known, ?_⟩
        have elsewhere : f' k ≠ heap.size := fun clash =>
          same (restored.mirror.apart k member id
            (restored.grows id Array.mem_push_self) (clash.trans here.symm))
        change (t.heap.fill heap.size (cell.content.rename f'))[f' k]? = _
        rw [Heap.fill_of_ne _ elsewhere]
        exact there

/-! ## References -/

variable {layout : Layout} {tag : Bytes} {lower : Lower} {fresh : Ty → Read Value} {old : Value}

theorem byLayout_known {number : Nat} (found : h[id]? = some cell)
    (refers : layout.Refers r cell.type tag) (known : met.idxOf? id = some number)
    (begins : s.Begins o (backMarker :: Scalar.u32.encode number)) (mirror : Mirror h f met s) :
    ∃ t, byLayout (r.readContext o) lower fresh type old layout s = .ok (.object (f id)) t ∧
      s.Consumes (backMarker :: Scalar.u32.encode number) t := by
  obtain ⟨t, moved⟩ := begins.consumes
  refine ⟨t, ?_, moved⟩
  have place : met[number]? = some id := getElem?_of_idxOf? known
  have below : number < met.size := (Array.getElem?_eq_some_iff.mp place).1
  have small : number < leBound 4 := Nat.lt_of_lt_of_le below mirror.few
  have bound : s.bound[number]? = some (f id) := by
    rw [mirror.bound_eq, Array.getElem?_map, place]
    rfl
  rw [Writing.encode_u32 small] at moved
  cases refers with
  | shared content =>
      obtain ⟨source, target, here, there, same⟩ :=
        mirror.typed id (Array.mem_of_getElem? place)
      obtain rfl := Option.some.inj (found.symm.trans here)
      exact keeping_eq_ok.mpr (shared_eq_ok.mpr
        (.inl ⟨number, f id, target, small, bound, there, same, rfl, moved⟩))
  | anyShared tagged =>
      exact keeping_eq_ok.mpr (anyShared_eq_ok.mpr
        (.inl ⟨number, f id, small, bound, rfl, moved⟩))

theorem nextNumber_of_mirror (mirror : Mirror h f met s) (few : met.size < leBound 4) :
    nextNumber s = met.size := by
  rw [nextNumber, mirror.bound_eq, Array.size_map, Nat.mod_eq_of_lt few]

theorem byLayout_fresh_eq (tags : r.tags.length ≤ leBound 4)
    (refers : layout.Refers r cell.type tag) (few : met.size < leBound 4)
    (moved : s.Consumes (newMarker :: Scalar.u32.encode met.size ++ tag) t)
    (mirror : Mirror h f met s) :
    byLayout (r.readContext o) lower fresh type old layout s =
      keeping old (object (r.readContext o) lower (nextNumber s) cell.type) t := by
  rw [Writing.encode_u32 few, ← nextNumber_of_mirror mirror few] at moved
  unfold keeping
  cases refers with
  | shared content =>
      rw [List.append_nil] at moved
      rw [byLayout, keeping, shared_of_fresh moved]
  | @anyShared _ place tagged =>
      obtain ⟨inside, same, _⟩ := List.idxOf?_eq_some_iff.mp tagged
      have small : place < leBound 4 := Nat.lt_of_lt_of_le inside tags
      rw [Writing.encode_u32 small] at moved
      have named : r.ofTag? place = some cell.type := by
        rw [Registry.ofTag?, List.getElem?_eq_getElem inside, same]
      rw [byLayout, keeping, anyShared_of_fresh small named moved]

theorem byLayout_fresh (tags : r.tags.length ≤ leBound 4)
    (content : Restores r o h n cell.type cell.content (met.push id) bs met')
    (found : h[id]? = some cell) (refers : layout.Refers r cell.type tag) (new : id ∉ met)
    (few : met.size < leBound 4)
    (begins : s.Begins o (newMarker :: Scalar.u32.encode met.size ++ tag ++ bs))
    (mirror : Mirror h f met s) :
    ∃ f' t, byLayout (r.readContext o) (lowerAt (r.readContext o) (n + 1)) fresh type old layout s =
        .ok (.object (f' id)) t ∧
      Restored h f met s (newMarker :: Scalar.u32.encode met.size ++ tag ++ bs) f' met' t := by
  obtain ⟨m, moved⟩ := begins.left.consumes
  have front := Restored.of_consumes mirror moved
  obtain ⟨f', t, run, restored⟩ := object_restored content found new few
    moved.nextNumber_eq.symm (begins.right moved.passes) front.mirror
  refine ⟨f', t, ?_, front.trans restored⟩
  rw [byLayout_fresh_eq tags refers few moved mirror]
  exact keeping_eq_ok.mpr run

/-! ## Values with parts -/

theorem byLayout_of_opens {front : Bytes} {next : Ty → Read Value}
    (renews : Renews r o h n octets next) (opens : layout.Opens o v front)
    (carries : layout.Carries o v) (unlike : ∀ fields, layout ≠ .record fields)
    (plain : ∀ p ∈ layout.parts v, p.2.orderingKey = p.2)
    (all : RestoresAll r o h n (layout.parts v) met bs met') (begins : s.Begins o (front ++ bs))
    (room : s.input.remaining ≤ octets + 1) (mirror : Mirror h f met s) :
    ∃ f' t, byLayout (r.readContext o) lower next type old layout s = .ok (v.rename f') t ∧
      Restored h f met s (front ++ bs) f' met' t := by
  obtain ⟨m, moved⟩ := begins.left.consumes
  have opened := Restored.of_consumes mirror moved
  have after := begins.right moved.passes
  have taken := moved.passes.remaining_le
  cases opens with
  | seq item vs admits =>
      have count := take_length.mpr ⟨admitted begins admits, moved⟩
      rw [length_leBytes] at taken
      obtain ⟨f', t, run, restored⟩ := items_restored renews all #[] after (by omega) opened.mirror
      refine ⟨f', t, bind_eq_ok.mpr ⟨_, m, keeping_eq_ok.mpr count, ?_⟩, opened.trans restored⟩
      rw [run, Value.rename, Value.renameAll_eq_map]
      rfl
  | set item order vs admits =>
      have same : ∀ w ∈ vs, w.orderingKey = w := fun w inside =>
        plain (item, w) (List.mem_map_of_mem inside)
      have ascending := ascending_of_set carries same
      have unchanged : ∀ f, vs.map (Value.rename f) = vs := fun f => by
        refine (List.map_congr_left fun w inside => ?_).trans (List.map_id _)
        exact Value.rename_of_closed (same w inside ▸ ascending.closed w inside)
      have count := take_length.mpr ⟨admitted begins admits, moved⟩
      rw [length_leBytes] at taken
      obtain ⟨f', t, run, restored⟩ := ascendingItems_restored renews same all #[] ascending
        after (by omega) opened.mirror
      refine ⟨f', t, bind_eq_ok.mpr ⟨_, m, keeping_eq_ok.mpr count, ?_⟩, opened.trans restored⟩
      rw [run, Value.rename, Value.renameAll_eq_map, unchanged]
      rfl
  | map keyType valueType order entries admits shaped =>
      have count := take_length.mpr ⟨admitted begins admits, moved⟩
      rw [length_leBytes] at taken
      obtain ⟨f', t, run, restored⟩ := ascendingEntries_restored renews shaped all #[]
        (ascending_of_map carries) after (by omega) opened.mirror
      refine ⟨f', t, bind_eq_ok.mpr ⟨_, m, keeping_eq_ok.mpr count, ?_⟩, opened.trans restored⟩
      rw [run, Value.rename, Value.renameAll_eq_map]
      rfl
  | present item w =>
      cases all with
      | cons first rest =>
          cases rest
          rw [List.append_nil] at after ⊢
          have octet : take Reading.octet s = .ok 1 m := take_octet.mpr moved
          have fewer : m.input.remaining ≤ octets := by
            rw [List.length_singleton] at taken
            omega
          obtain ⟨f', t, run, restored⟩ := renews first after fewer opened.mirror
          refine ⟨f', t, keeping_eq_ok.mpr (bind_eq_ok.mpr ⟨1, m, octet, ?_⟩),
            opened.trans restored⟩
          exact bind_eq_ok.mpr ⟨_, t, run, rfl⟩
  | record fields vs full => exact absurd rfl (unlike fields)

end Read

/-! ## From the grammar to the walk -/

open Read

section

variable {n : Nat} {type : Ty} {v : Value} {layout : Layout} {id : Nat} {cell : Cell} {tag : Bytes}

theorem restores_leaf (symmetric : r.Symmetric type layout) (carries : layout.Carries o v)
    (encodes : layout.Encodes o v bs) : Restores r o h n type v met bs met := by
  have closed : v.references = [] := by
    cases encodes with
    | nothing v =>
        cases carries
        rfl
    | _ => rfl
  refine ⟨symmetric.makes, by simp [closed], ?_⟩
  intro s f octets old begins _ fillable mirror
  obtain ⟨t, run, moved⟩ := byLayout_of_encodes encodes carries symmetric.reader_eq fillable begins
  refine ⟨f, t, ?_, .of_consumes mirror moved⟩
  rw [Value.rename_of_closed closed, value_eq,
    inPlace_eq_byLayout symmetric.reader_eq encodes.ne_record]
  exact run

theorem restores_parts {front : Bytes} (symmetric : r.Symmetric type layout)
    (carries : layout.Carries o v) (opens : layout.Opens o v front)
    (known : ∀ id ∈ v.references, id ∈ met')
    (plain : ∀ p ∈ layout.parts v, p.2.orderingKey = p.2)
    (all : RestoresAll r o h n (layout.parts v) met bs met') :
    Restores r o h n type v met (front ++ bs) met' := by
  refine ⟨symmetric.makes, known, ?_⟩
  intro s f octets old begins room fillable mirror
  by_cases record : ∃ fields, layout = .record fields
  · obtain ⟨fields, rfl⟩ := record
    cases opens with
    | record _ vs full =>
        obtain ⟨olds, rfl, filled⟩ := fillable.fields symmetric.reader_eq (.inl rfl)
        obtain ⟨f', t, run, restored⟩ :=
          eachField_restored fills_value full all filled begins room mirror
        refine ⟨f', t, ?_, restored⟩
        rw [value_eq] at run ⊢
        refine (inPlace_record symmetric.reader_eq olds).mpr ⟨_, run, ?_⟩
        rw [Value.rename, Value.renameAll_eq_map]
  · have unlike : ∀ fields, layout ≠ .record fields := fun fields same => record ⟨fields, same⟩
    obtain ⟨rest, start⟩ := begins.starts
    have front_pos := opens.length_pos unlike
    cases octets with
    | zero =>
        rw [ByteReader.remaining, start] at room
        simp only [List.length_append] at room
        omega
    | succ octets =>
        rw [value_eq, inPlace_eq_byLayout symmetric.reader_eq unlike]
        exact byLayout_of_opens renews_create opens carries unlike plain all begins room mirror

theorem restores_nested {fields : List Ty} {vs : List Value}
    (symmetric : r.Symmetric type (.nested fields)) (full : fields.length = vs.length)
    (known : ∀ id ∈ (Value.list vs).references, id ∈ met')
    (all : RestoresAll r o h n (fields.zip vs) met bs met') :
    Restores r o h (n + 1) type (.list vs) met bs met' := by
  refine ⟨symmetric.makes, known, ?_⟩
  intro s f octets old begins room fillable mirror
  obtain ⟨olds, rfl, filled⟩ := fillable.fields symmetric.reader_eq (.inr rfl)
  obtain ⟨f', t, run, restored⟩ :=
    eachField_restored fills_valueAt full all filled begins room mirror
  refine ⟨f', t, ?_, restored⟩
  rw [value_eq, inPlace_eq_byLayout symmetric.reader_eq (by simp)]
  rw [byLayout, descend_eq_ok]
  refine ⟨_, rfl, asRecord_eq_ok.mpr ⟨_, run, ?_⟩⟩
  rw [Value.rename, Value.renameAll_eq_map]

theorem restores_known {number : Nat} (symmetric : r.Symmetric type layout)
    (found : h[id]? = some cell) (refers : layout.Refers r cell.type tag)
    (known : met.idxOf? id = some number) :
    Restores r o h n type (.object id) met (backMarker :: Scalar.u32.encode number) met := by
  refine ⟨symmetric.makes, ?_, ?_⟩
  · intro k member
    rw [Value.references, List.mem_singleton] at member
    subst member
    exact Array.mem_of_getElem? (getElem?_of_idxOf? known)
  · intro s f octets old begins _ _ mirror
    obtain ⟨t, run, moved⟩ := byLayout_known found refers known begins mirror
    refine ⟨f, t, ?_, .of_consumes mirror moved⟩
    rw [value_eq, inPlace_eq_byLayout symmetric.reader_eq refers.ne_record]
    exact run

theorem restores_fresh (tags : r.tags.length ≤ leBound 4) (symmetric : r.Symmetric type layout)
    (content : Restores r o h n cell.type cell.content (met.push id) bs met')
    (found : h[id]? = some cell) (refers : layout.Refers r cell.type tag) (new : id ∉ met)
    (few : met.size < leBound 4) (member : id ∈ met') :
    Restores r o h (n + 1) type (.object id) met
      (newMarker :: Scalar.u32.encode met.size ++ tag ++ bs) met' := by
  refine ⟨symmetric.makes, ?_, ?_⟩
  · intro k inside
    rw [Value.references, List.mem_singleton] at inside
    rw [inside]
    exact member
  · intro s f octets old begins _ _ mirror
    obtain ⟨f', t, run, restored⟩ := byLayout_fresh tags content found refers new few begins mirror
    refine ⟨f', t, ?_, restored⟩
    rw [value_eq, inPlace_eq_byLayout symmetric.reader_eq refers.ne_record]
    exact run

end

mutual

theorem Written.restores (tags : r.tags.length ≤ leBound 4) : ∀ {n : Nat} {type : Ty} {v : Value}
    {met met' : Array Nat} {bs : Bytes}, Written r o h n type v met bs met' →
    r.Faithful o h type v → Restores r o h n type v met bs met'
  | _, _, _, _, _, _, .leaf found encodes, faithful =>
      have ⟨symmetric, carries⟩ := faithful.of_writer found
      restores_leaf symmetric carries encodes
  | _, _, _, _, _, _, .parts found opens all, faithful =>
      have ⟨symmetric, carries⟩ := faithful.of_writer found
      restores_parts symmetric carries opens
        (fun _ => (Written.parts found opens all).references_met faithful)
        (fun _ member =>
          have ⟨_, _, carries⟩ := (faithful.part found member).self
          carries.orderingKey_eq)
        (all.restoresAll tags fun _ member => faithful.part found member)
  | _, _, _, _, _, _, .nested found full all, faithful =>
      restores_nested (faithful.of_writer found).1 full
        (fun _ => (Written.nested found full all).references_met faithful)
        (all.restoresAll tags fun _ member => faithful.part found member)
  | _, _, _, _, _, _, .known found held refers known, faithful =>
      restores_known (faithful.of_writer found).1 held refers known
  | _, _, _, _, _, _, .fresh found held refers new room content, faithful =>
      restores_fresh tags (faithful.of_writer found).1
        (content.restores tags (faithful.content held)) held refers new room
        (content.mem_of_mem Array.mem_push_self)

theorem WrittenAll.restoresAll (tags : r.tags.length ≤ leBound 4) : ∀ {n : Nat}
    {ps : List (Ty × Value)} {met met' : Array Nat} {bs : Bytes},
    WrittenAll r o h n ps met bs met' → (∀ p ∈ ps, r.Faithful o h p.1 p.2) →
    RestoresAll r o h n ps met bs met'
  | _, _, _, _, _, .nil, _ => .nil
  | _, _, _, _, _, .cons first rest, faithful =>
      .cons (first.restores tags (faithful _ List.mem_cons_self))
        (rest.restoresAll tags fun q member => faithful q (List.mem_cons_of_mem _ member))

end

end Chronicle
