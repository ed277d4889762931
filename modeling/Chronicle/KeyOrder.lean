import Chronicle.Value

/-!
# Orders of keys

An ordered container compares its keys by the order of their type.  A key that
holds a reference is compared by the content it leads to, and that content may
be in the middle of being filled, or may lead back to itself.  A comparison
therefore need not come to an end with an order.
-/

namespace Chronicle

inductive Comparison where
  | found (order : Ordering)
  /-- A content was asked for that is being changed. -/
  | borrowed
  /-- One pair of contents leads to the next without an end. -/
  | endless
  deriving DecidableEq, Repr

namespace Comparison

/-- What comes first decides, unless it is equal. -/
def lex (first : Comparison) (second : Unit → Comparison) : Comparison :=
  match first with
  | .found .eq => second ()
  | c => c

theorem lex_eq_found {c : Comparison} {d : Unit → Comparison} {o : Ordering} :
    c.lex d = .found o ↔ c = .found .eq ∧ d () = .found o ∨ c = .found o ∧ o ≠ .eq := by
  rcases c with (_ | _ | _) | _ | _ <;> cases o <;> simp [lex]

theorem lex_of_lt {c : Comparison} (less : c = .found .lt) (d : Unit → Comparison) :
    c.lex d = .found .lt := by
  rw [less]
  rfl

def IsFound : Comparison → Prop
  | .found _ => True
  | _ => False

theorem lex_congr {stays : Comparison → Prop} (found : ∀ o, stays (.found o)) {c c' : Comparison}
    {d d' : Unit → Comparison} (first : stays c → c' = c) (second : stays (d ()) → d' () = d ())
    (stay : stays (c.lex d)) : c'.lex d' = c.lex d := by
  rcases c with (_ | _ | _) | _ | _
  case found.eq =>
    rw [first (found .eq)]
    exact second stay
  all_goals
    rw [first stay]
    rfl

variable {α : Type}

/-- Seen from the other side, what was found is found the other way round. -/
def Swaps (c : α → α → Comparison) (a b : α) : Prop :=
  ∀ o, c a b = .found o → c b a = .found o.swap

def Joins (c : α → α → Comparison) (a₁ a₂ a₃ : α) : Prop :=
  ∀ o o', c a₁ a₂ = .found o → c a₂ a₃ = .found o' → o.isLE → o'.isLE →
    c a₁ a₃ = .found (o.then o')

theorem Swaps.lex {β : Type} {c : α → α → Comparison} {d : β → β → Comparison} {a b : α}
    {x y : β} {o : Ordering} (first : Swaps c a b) (second : Swaps d x y)
    (run : (c a b).lex (fun _ => d x y) = .found o) :
    (c b a).lex (fun _ => d y x) = .found o.swap := by
  rcases lex_eq_found.mp run with ⟨same, rest⟩ | ⟨decided, apart⟩
  · exact lex_eq_found.mpr (.inl ⟨first _ same, second _ rest⟩)
  · refine lex_eq_found.mpr (.inr ⟨first _ decided, ?_⟩)
    cases o <;> simp at apart ⊢

theorem eq_lt_of_isLE {o : Ordering} (le : o.isLE) (apart : o ≠ .eq) : o = .lt := by
  cases o <;> simp at le apart ⊢

theorem Joins.lex {β : Type} {c : α → α → Comparison} {d : β → β → Comparison}
    {a₁ a₂ a₃ : α} {x₁ x₂ x₃ : β} {o o' : Ordering} (first : Joins c a₁ a₂ a₃)
    (second : Joins d x₁ x₂ x₃) (run : (c a₁ a₂).lex (fun _ => d x₁ x₂) = .found o)
    (run' : (c a₂ a₃).lex (fun _ => d x₂ x₃) = .found o') (le : o.isLE) (le' : o'.isLE) :
    (c a₁ a₃).lex (fun _ => d x₁ x₃) = .found (o.then o') := by
  rcases lex_eq_found.mp run with ⟨same, rest⟩ | ⟨decided, apart⟩ <;>
    rcases lex_eq_found.mp run' with ⟨same', rest'⟩ | ⟨decided', apart'⟩
  · exact lex_eq_found.mpr
      (.inl ⟨first _ _ same same' rfl rfl, second _ _ rest rest' le le'⟩)
  · obtain rfl := eq_lt_of_isLE le' apart'
    rw [lex_of_lt (first _ _ same decided' rfl rfl)]
    cases o <;> first | rfl | contradiction
  · obtain rfl := eq_lt_of_isLE le apart
    exact lex_of_lt (first _ _ decided same' rfl rfl) _
  · obtain rfl := eq_lt_of_isLE le apart
    exact lex_of_lt (first _ _ decided decided' rfl le') _

theorem swaps_found (cmp : α → α → Ordering) [Std.OrientedCmp cmp] (a b : α) :
    Swaps (fun a b => .found (cmp a b)) a b := by
  rintro o ⟨⟩
  exact congrArg found Std.OrientedCmp.eq_swap

theorem joins_found (cmp : α → α → Ordering) [Std.TransCmp cmp] (a₁ a₂ a₃ : α) :
    Joins (fun a b => .found (cmp a b)) a₁ a₂ a₃ := by
  rintro o o' ⟨⟩ ⟨⟩ le le'
  refine congrArg found ?_
  cases first : cmp a₁ a₂ with
  | lt => exact Std.TransCmp.lt_of_lt_of_isLE first le'
  | eq => exact Std.TransCmp.congr_left first
  | gt => simp [first] at le

end Comparison

/-- The order of the keys of one container.  It sees the objects, and which of
them are being filled.  Objects that come after a comparison do not change what
it found, and keys without references compare alike everywhere. -/
structure KeyOrder where
  compare : Heap → List Nat → Value → Value → Comparison
  swap {h : Heap} {filling : List Nat} {v w : Value} {o : Ordering} :
    compare h filling v w = .found o → compare h filling w v = .found o.swap
  trans {h : Heap} {filling : List Nat} {u v w : Value} :
    compare h filling u v = .found .lt → compare h filling v w = .found .lt →
      compare h filling u w = .found .lt
  keeps {h h' : Heap} {filling : List Nat} {v w : Value} {o : Ordering} :
    (∀ id < h.size, h'[id]? = h[id]?) → compare h filling v w = .found o →
      compare h' filling v w = .found o
  closed {h : Heap} {filling : List Nat} {v w : Value} :
    v.references = [] → w.references = [] → compare h filling v w = compare #[] [] v w

namespace KeyOrder

def Less (order : KeyOrder) (v w : Value) : Prop :=
  order.compare #[] [] v w = .found .lt

variable (order : KeyOrder) (h : Heap) (filling : List Nat)

/-- Put an item into an ascending list, where an entry replaces one with its
key, as long as the keys can be compared. -/
def insert? (item : Value) : List Value → Option (List Value)
  | [] => some [item]
  | other :: rest =>
      match order.compare h filling item.orderingKey other.orderingKey with
      | .found .lt => some (item :: other :: rest)
      | .found .eq => some (item :: rest)
      | .found .gt => (insert? item rest).map (other :: ·)
      | _ => none

def sort? (items : List Value) : Option (List Value) :=
  items.foldlM (fun sorted item => order.insert? h filling item sorted) []

variable {order h filling}

theorem insert?_of_forall_lt {item : Value} {items : List Value}
    (last : ∀ other ∈ items,
      order.compare h filling other.orderingKey item.orderingKey = .found .lt) :
    order.insert? h filling item items = some (items ++ [item]) := by
  induction items with
  | nil => rfl
  | cons other rest ih =>
    have after : order.compare h filling item.orderingKey other.orderingKey = .found .gt :=
      order.swap (last other List.mem_cons_self)
    have inside := ih fun other member => last other (List.mem_cons_of_mem _ member)
    rw [insert?, after, inside]
    rfl

theorem sort?_of_ascending {items : List Value}
    (ascending : items.Pairwise fun v w =>
      order.compare h filling v.orderingKey w.orderingKey = .found .lt) :
    order.sort? h filling items = some items := by
  suffices onward : ∀ front back : List Value, front ++ back = items →
      back.foldlM (fun sorted item => order.insert? h filling item sorted) front = some items from
    onward [] items rfl
  intro front back split
  induction back generalizing front with
  | nil => rw [← split, List.append_nil, List.foldlM_nil, Option.pure_def]
  | cons item back ih =>
    have last := (List.pairwise_append.mp (split ▸ ascending)).2.2
    have inserted := insert?_of_forall_lt fun other member =>
      last other member item List.mem_cons_self
    rw [List.foldlM_cons, inserted]
    exact ih (front ++ [item]) (by rw [List.append_assoc]; exact split)

end KeyOrder

end Chronicle
