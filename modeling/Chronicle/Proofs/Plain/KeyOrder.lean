import Chronicle.Plain.OrderKey

/-!
# The order of keys

Comparing two keys looks at their faces first and then at their parts, one after
the other.  Faces are made of numbers, text and octets, so their order is a
linear one, and by induction over the parts so is the order of keys.
-/

namespace Chronicle.Plain.OrderKey

/-! ## Faces and parts -/

def natural : OrderKey → Nat
  | .bool b => b.toNat
  | .uint n => n
  | .variant index _ => index
  | _ => 0

def integer : OrderKey → Int
  | .int n => n
  | .float key => key
  | _ => 0

def lettering : OrderKey → String
  | .text s => s
  | _ => ""

def octets : OrderKey → Bytes
  | .bytes bs => bs
  | _ => []

def parts : OrderKey → List OrderKey
  | .seq items => items
  | .variant _ key => [key]
  | _ => []

/-- Compare what two keys show apart from their parts. -/
def faceCmp : OrderKey → OrderKey → Ordering :=
  compareLex (compareOn rank) <| compareLex (compareOn natural) <|
    compareLex (compareOn integer) <| compareLex (compareOn lettering) (compareOn octets)

instance : Std.TransCmp faceCmp :=
  inferInstanceAs (Std.TransCmp (compareLex (compareOn rank) (compareLex (compareOn natural)
    (compareLex (compareOn integer) (compareLex (compareOn lettering) (compareOn octets))))))

theorem compare_toNat (a b : Bool) : compare a.toNat b.toNat = compare a b := by
  cases a <;> cases b <;> rfl

theorem cmp_of_rank_ne {a b : OrderKey} (unlike : a.rank ≠ b.rank) :
    a.cmp b = compare a.rank b.rank := by
  cases a <;> cases b <;> simp [cmp, rank] at unlike ⊢

theorem cmp_eq (a b : OrderKey) : a.cmp b = (faceCmp a b).then (cmpAll a.parts b.parts) := by
  by_cases alike : a.rank = b.rank
  · cases a <;> cases b <;> simp [rank] at alike <;>
      simp [cmp, cmpAll, faceCmp, compareLex, compareOn, rank, natural, integer, lettering, octets,
        parts, compare_toNat]
  · have apart : compare a.rank b.rank ≠ .eq :=
      fun same => alike (Std.LawfulEqCmp.eq_of_compare same)
    rw [cmp_of_rank_ne alike]
    cases order : compare a.rank b.rank <;>
      simp [faceCmp, compareLex, compareOn, order] at apart ⊢

theorem parts_induction {P : OrderKey → Prop} {Q : List OrderKey → Prop}
    (key : ∀ a, Q a.parts → P a) (nil : Q []) (cons : ∀ a as, P a → Q as → Q (a :: as))
    (a : OrderKey) : P a := by
  refine a.rec (motive_1 := P) (motive_2 := Q) (key _ nil) (fun b => key (.bool b) nil)
    (fun n => key (.int n) nil) (fun n => key (.uint n) nil) (fun n => key (.float n) nil)
    (fun s => key (.text s) nil) (fun bs => key (.bytes bs) nil)
    (fun items ih => key (.seq items) ih)
    (fun index part ih => key (.variant index part) (cons part [] ih nil)) nil
    (fun a as ih ih' => cons a as ih ih')

/-! ## A linear order -/

theorem eq_of_face {a b : OrderKey} (face : faceCmp a b = .eq) (alike : a.parts = b.parts) :
    a = b := by
  simp only [faceCmp, compareLex_eq_eq, compareOn, Std.LawfulEqCmp.compare_eq_iff_eq] at face
  obtain ⟨kind, natural, integer, lettering, octets⟩ := face
  cases a <;> cases b <;> simp [rank] at kind <;>
    simp_all [OrderKey.natural, OrderKey.integer, OrderKey.lettering, OrderKey.octets, parts]
  case bool.bool b b' => cases b <;> cases b' <;> simp at natural ⊢

theorem eq_of_cmp {a : OrderKey} : ∀ b, a.cmp b = .eq → a = b := by
  refine parts_induction (P := fun a => ∀ b, a.cmp b = .eq → a = b)
    (Q := fun as => ∀ bs, cmpAll as bs = .eq → as = bs) ?key ?nil ?cons a
  case key =>
    intro a ih b same
    rw [cmp_eq, Ordering.then_eq_eq] at same
    exact eq_of_face same.1 (ih _ same.2)
  case nil =>
    intro bs same
    cases bs with
    | nil => rfl
    | cons b bs => cases same
  case cons =>
    intro a as ih ih' bs same
    cases bs with
    | nil => cases same
    | cons b bs =>
        rw [cmpAll, Ordering.then_eq_eq] at same
        rw [ih b same.1, ih' bs same.2]

theorem cmp_swap {a : OrderKey} : ∀ b, a.cmp b = (b.cmp a).swap := by
  refine parts_induction (P := fun a => ∀ b, a.cmp b = (b.cmp a).swap)
    (Q := fun as => ∀ bs, cmpAll as bs = (cmpAll bs as).swap) ?key ?nil ?cons a
  case key =>
    intro a ih b
    rw [cmp_eq, cmp_eq, Ordering.swap_then, ← ih, ← Std.OrientedCmp.eq_swap]
  case nil =>
    intro bs
    cases bs <;> rfl
  case cons =>
    intro a as ih ih' bs
    cases bs with
    | nil => rfl
    | cons b bs => rw [cmpAll, cmpAll, Ordering.swap_then, ← ih, ← ih']

instance : Std.OrientedCmp cmp where
  eq_swap := cmp_swap _

instance : Std.LawfulEqCmp cmp where
  eq_of_compare := eq_of_cmp _

theorem cmp_trans {a : OrderKey} : ∀ b c, a.cmp b = .lt → b.cmp c = .lt → a.cmp c = .lt := by
  refine parts_induction (P := fun a => ∀ b c, a.cmp b = .lt → b.cmp c = .lt → a.cmp c = .lt)
    (Q := fun as => ∀ bs cs, cmpAll as bs = .lt → cmpAll bs cs = .lt → cmpAll as cs = .lt)
    ?key ?nil ?cons a
  case key =>
    intro a ih b c first second
    rw [cmp_eq, Ordering.then_eq_lt] at first second ⊢
    rcases first with face | ⟨same, first⟩ <;> rcases second with face' | ⟨same', second⟩
    · exact .inl (Std.TransCmp.lt_trans face face')
    · exact .inl (Std.TransCmp.lt_of_lt_of_eq face same')
    · exact .inl (Std.TransCmp.lt_of_eq_of_lt same face')
    · exact .inr ⟨Std.TransCmp.eq_trans same same', ih _ _ first second⟩
  case nil =>
    intro bs cs first second
    cases cs with
    | nil => cases bs <;> cases second
    | cons c cs => rfl
  case cons =>
    intro a as ih ih' bs cs first second
    cases bs with
    | nil => cases first
    | cons b bs =>
        cases cs with
        | nil => cases second
        | cons c cs =>
            rw [cmpAll, Ordering.then_eq_lt] at first second ⊢
            rcases first with before | ⟨same, first⟩ <;>
              rcases second with before' | ⟨same', second⟩
            · exact .inl (ih _ _ before before')
            · exact .inl (eq_of_cmp _ same' ▸ before)
            · exact .inl ((eq_of_cmp _ same).symm ▸ before')
            · exact .inr ⟨eq_of_cmp _ same ▸ same', ih' _ _ first second⟩

instance : Std.TransCmp cmp where
  isLE_trans := by
    intro a b c first second
    rw [Ordering.isLE_iff_eq_lt_or_eq_eq] at first second ⊢
    rcases first with before | same
    · rcases second with before' | same'
      · exact .inl (cmp_trans b c before before')
      · exact .inl (eq_of_cmp c same' ▸ before)
    · rw [eq_of_cmp b same]
      exact second

end Chronicle.Plain.OrderKey
