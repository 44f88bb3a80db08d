import Mathlib

/-!
# Lists

`optAll` maps a partial function over a list and fails if one element does.
`EachLast` relates two lists element by element and tells the predicate, at the
last pair, the value of a flag (it is `false` before): this is how a property of
the rightmost path of a tree passes to the last child only.
-/

namespace Ocfs2Tools

open List

variable {α β γ : Type}

/-- All results of `f` on a list, if there are all of them. -/
def optAll (f : α → Option β) : List α → Option (List β)
  | [] => some []
  | a :: as =>
    match f a, optAll f as with
    | some b, some bs => some (b :: bs)
    | _, _ => none

theorem optAll_eq_some {f : α → Option β} : ∀ {as bs},
    optAll f as = some bs ↔ List.Forall₂ (fun a b => f a = some b) as bs
  | [], bs => by
    cases bs with
    | nil => simp [optAll]
    | cons b bs => simp [optAll]
  | a :: as, bs => by
    cases bs with
    | nil =>
      simp only [optAll, forall₂_nil_right_iff, reduceCtorEq, iff_false]
      split <;> simp
    | cons b bs =>
      simp only [optAll, forall₂_cons, ← @optAll_eq_some f as]
      cases f a with
      | none => simp
      | some b' =>
        cases optAll f as with
        | none => simp
        | some bs' => simp

theorem forall₂_mem_right {R : α → β → Prop} : ∀ {as bs},
    List.Forall₂ R as bs → ∀ b ∈ bs, ∃ a ∈ as, R a b
  | _, _, .nil, b, hb => by cases hb
  | a :: as, _, .cons h hs, b, hb => by
    rcases mem_cons.mp hb with rfl | hb
    · exact ⟨a, by simp, h⟩
    · obtain ⟨a', ha', h'⟩ := forall₂_mem_right hs b hb
      exact ⟨a', mem_cons_of_mem _ ha', h'⟩

theorem forall₂_mem_left {R : α → β → Prop} : ∀ {as bs},
    List.Forall₂ R as bs → ∀ a ∈ as, ∃ b ∈ bs, R a b
  | _, _, .nil, a, ha => by cases ha
  | _, b :: bs, .cons h hs, a, ha => by
    rcases mem_cons.mp ha with rfl | ha
    · exact ⟨b, by simp, h⟩
    · obtain ⟨b', hb', h'⟩ := forall₂_mem_left hs a ha
      exact ⟨b', mem_cons_of_mem _ hb', h'⟩

theorem forall₂_append {R : α → β → Prop} {as' : List α} {bs' : List β} :
    ∀ {as bs}, as.length = bs.length →
      (List.Forall₂ R (as ++ as') (bs ++ bs') ↔ List.Forall₂ R as bs ∧ List.Forall₂ R as' bs')
  | [], [], _ => by simp
  | [], _ :: _, h => by simp at h
  | _ :: _, [], h => by simp at h
  | _ :: as, _ :: bs, h => by
    have hl : as.length = bs.length := by simpa using h
    simp only [cons_append, forall₂_cons, and_assoc, forall₂_append hl]

theorem forall₂_append_left {R : α → β → Prop} {as' : List α} : ∀ {as bs},
    List.Forall₂ R (as ++ as') bs → ∃ ls rs, bs = ls ++ rs ∧ as.length = ls.length ∧
      List.Forall₂ R as ls ∧ List.Forall₂ R as' rs
  | [], bs, h => ⟨[], bs, rfl, rfl, .nil, h⟩
  | _ :: _, b :: _, .cons h hs => by
    obtain ⟨ls, rs, rfl, hlen, h1, h2⟩ := forall₂_append_left hs
    exact ⟨b :: ls, rs, rfl, by simp [hlen], .cons h h1, h2⟩

theorem forall₂_imp_mem {R S : α → β → Prop} : ∀ {as bs},
    List.Forall₂ R as bs → (∀ a ∈ as, ∀ b ∈ bs, R a b → S a b) → List.Forall₂ S as bs
  | _, _, .nil, _ => .nil
  | _ :: _, _ :: _, .cons h hs, hRS =>
    .cons (hRS _ (by simp) _ (by simp) h) (forall₂_imp_mem hs fun a ha b hb =>
        hRS a (mem_cons_of_mem _ ha) b (mem_cons_of_mem _ hb))

/-- `P` of the pairs of two lists of one length; the flag reaches the last pair. -/
def EachLast (P : Bool → α → β → Prop) (flag : Bool) : List α → List β → Prop
  | [], [] => True
  | [a], [b] => P flag a b
  | a :: a' :: as, b :: b' :: bs => P false a b ∧ EachLast P flag (a' :: as) (b' :: bs)
  | _, _ => False

instance decidableEachLast (P : Bool → α → β → Prop) [∀ f a b, Decidable (P f a b)]
    (flag : Bool) : ∀ as bs, Decidable (EachLast P flag as bs)
  | [], [] => .isTrue trivial
  | [a], [b] => inferInstanceAs (Decidable (P flag a b))
  | a :: a' :: as, b :: b' :: bs =>
    have := decidableEachLast P flag (a' :: as) (b' :: bs)
    inferInstanceAs (Decidable (P false a b ∧ _))
  | [], _ :: _ => .isFalse id
  | _ :: _, [] => .isFalse (by cases ‹List α› <;> exact id)
  | [_], _ :: _ :: _ => .isFalse id
  | _ :: _ :: _, [_] => .isFalse id

variable {P : Bool → α → β → Prop} {flag : Bool} {a : α}

theorem EachLast.length_eq : ∀ {as bs}, EachLast P flag as bs → as.length = bs.length
  | [], [], _ => rfl
  | [_], [_], _ => rfl
  | _ :: a' :: as, _ :: b' :: bs, h => by
    have hrest : EachLast P flag (a' :: as) (b' :: bs) := h.2
    simpa using hrest.length_eq
  | [], _ :: _, h => h.elim
  | [_], [], h => h.elim
  | _ :: _ :: _, [], h => h.elim
  | [_], _ :: _ :: _, h => h.elim
  | _ :: _ :: _, [_], h => h.elim

theorem eachLast_cons {b : β} {as : List α} {bs : List β}
    (h : as ≠ []) : EachLast P flag (a :: as) (b :: bs) ↔ P false a b ∧ EachLast P flag as bs := by
  cases as with
  | nil => exact absurd rfl h
  | cons a' as =>
    cases bs with
    | nil => cases as <;> simp [EachLast]
    | cons b' bs => simp [EachLast]

theorem eachLast_append {as' : List α} {bs' : List β} (h : as' ≠ []) : ∀ {as bs},
    as.length = bs.length →
    (EachLast P flag (as ++ as') (bs ++ bs') ↔
      List.Forall₂ (P false) as bs ∧ EachLast P flag as' bs')
  | [], [], _ => by simp
  | [], _ :: _, hl => by simp at hl
  | _ :: _, [], hl => by simp at hl
  | a :: as, b :: bs, hl => by
    have hne : as ++ as' ≠ [] := by simp [h]
    rw [cons_append, cons_append, eachLast_cons hne,
      eachLast_append h (by simpa using hl), forall₂_cons, and_assoc]

theorem eachLast_of_forall₂ (hP : ∀ a b, P false a b → P flag a b) : ∀ {as bs},
    List.Forall₂ (P false) as bs → EachLast P flag as bs
  | _, _, .nil => trivial
  | [_], _, .cons h .nil => hP _ _ h
  | _ :: _ :: _, _, .cons h (.cons h' hs) => ⟨h, eachLast_of_forall₂ hP (.cons h' hs)⟩

theorem EachLast.forall₂ {R : α → β → Prop} (hPR : ∀ f a b, P f a b → R a b) :
    ∀ {as bs}, EachLast P flag as bs → List.Forall₂ R as bs
  | [], [], _ => .nil
  | [a], [b], h => .cons (hPR flag a b h) .nil
  | a :: _ :: _, b :: _ :: _, h => .cons (hPR false a b h.1) (EachLast.forall₂ hPR h.2)
  | [], _ :: _, h => h.elim
  | [_], [], h => h.elim
  | _ :: _ :: _, [], h => h.elim
  | [_], _ :: _ :: _, h => h.elim
  | _ :: _ :: _, [_], h => h.elim

/-- In a list sorted by a key, the last element with a property has the largest key of
    those that have it. -/
theorem le_getLast?_filter {l : List α} {p : α → Bool} {f : α → Nat} {c : α}
    (h : l.Pairwise fun x y => f x ≤ f y) (hc : (l.filter p).getLast? = some c) (ha : a ∈ l)
    (hp : p a = true) : f a ≤ f c := by
  obtain ⟨front, hfront⟩ := getLast?_eq_some_iff.mp hc
  have hmem : a ∈ front ++ [c] := hfront ▸ mem_filter.mpr ⟨ha, hp⟩
  have hpair : (front ++ [c]).Pairwise fun x y => f x ≤ f y := hfront ▸ h.filter p
  rw [pairwise_append] at hpair
  rcases mem_append.mp hmem with hfr | hlast
  · exact hpair.2.2 a hfr c mem_cons_self
  · exact Nat.le_of_eq (congrArg f (mem_singleton.mp hlast))

theorem countP_lt {p q : α → Bool} : ∀ {l : List α},
    (∀ b ∈ l, q b = true → p b = true) → a ∈ l → p a = true → q a = false → l.countP q < l.countP p
  | [], _, ha, _, _ => by cases ha
  | b :: l, hpq, ha, hp, hq => by
    have hmono : l.countP q ≤ l.countP p :=
      countP_mono_left fun c hc => hpq c (mem_cons_of_mem b hc)
    rw [countP_cons, countP_cons]
    rcases mem_cons.mp ha with rfl | ha
    · rw [hp, hq]
      simp only [Bool.false_eq_true, if_false, if_true]
      omega
    · have ih := countP_lt (fun c hc => hpq c (mem_cons_of_mem b hc)) ha hp hq
      have hb := hpq b mem_cons_self
      cases hqb : q b with
      | false => simp only [Bool.false_eq_true, if_false]; split <;> omega
      | true => rw [hb hqb]; omega

end Ocfs2Tools
