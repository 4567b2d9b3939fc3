import Mathlib.Data.List.Basic

/-!
# Uniquely readable texts

The words of a prefix code can be told apart in a text that they begin. Other words, such as
numbers, can be told apart only in front of certain texts.
-/

namespace KiroProxy.PrefixCode

variable {α β : Type*}

/-- No word is the beginning of another one. -/
def IsPrefixCode (encode : α → List β) : Prop := ∀ a b, encode a <+: encode b → a = b

/-- The words of two elements are told apart in front of such texts. -/
def Apart (encode : α → List β) (Tail : List β → Prop) (a b : α) : Prop :=
  ∀ r r', Tail r → Tail r' → encode a ++ r = encode b ++ r' → a = b ∧ r = r'

section

variable {encode : α → List β}

theorem IsPrefixCode.apart (h : IsPrefixCode encode) (a b : α) :
    Apart encode (fun _ => True) a b := by
  intro r r' _ _ heq
  have hb : encode b <+: encode a ++ r := heq ▸ List.prefix_append _ _
  have hab : a = b := by
    rcases List.prefix_or_prefix_of_prefix (List.prefix_append (encode a) r) hb with hpre | hpre
    · exact h a b hpre
    · exact (h b a hpre).symm
  subst hab
  exact ⟨rfl, List.append_cancel_left heq⟩

theorem IsPrefixCode.flatMap_injective (h : IsPrefixCode encode) (hne : ∀ a, encode a ≠ []) :
    Function.Injective (List.flatMap encode) := by
  intro as bs heq
  induction as generalizing bs with
  | nil =>
    cases bs with
    | nil => rfl
    | cons b bs =>
      rw [List.flatMap_nil, List.flatMap_cons] at heq
      exact absurd (List.append_eq_nil_iff.mp heq.symm).1 (hne b)
  | cons a as ih =>
    cases bs with
    | nil =>
      rw [List.flatMap_nil, List.flatMap_cons] at heq
      exact absurd (List.append_eq_nil_iff.mp heq).1 (hne a)
    | cons b bs =>
      rw [List.flatMap_cons, List.flatMap_cons] at heq
      obtain ⟨rfl, hrest⟩ := h.apart a b _ _ trivial trivial heq
      rw [ih hrest]

/-- Words up to a word that ends them. -/
theorem IsPrefixCode.eq_of_stop {encode : Option α → List β} (h : IsPrefixCode encode)
    {as bs : List α} {r r' : List β}
    (heq : (as.flatMap fun a => encode (some a)) ++ (encode none ++ r) =
      (bs.flatMap fun b => encode (some b)) ++ (encode none ++ r')) : as = bs ∧ r = r' := by
  induction as generalizing bs with
  | nil =>
    cases bs with
    | nil => exact ⟨rfl, (h.apart none none _ _ trivial trivial heq).2⟩
    | cons b bs =>
      rw [List.flatMap_cons, List.append_assoc] at heq
      exact absurd (h.apart none (some b) _ _ trivial trivial heq).1 nofun
  | cons a as ih =>
    cases bs with
    | nil =>
      rw [List.flatMap_cons, List.append_assoc] at heq
      exact absurd (h.apart (some a) none _ _ trivial trivial heq).1 nofun
    | cons b bs =>
      rw [List.flatMap_cons, List.flatMap_cons, List.append_assoc, List.append_assoc] at heq
      obtain ⟨hab, hrest⟩ := h.apart (some a) (some b) _ _ trivial trivial heq
      obtain ⟨rfl, htail⟩ := ih hrest
      exact ⟨by rw [Option.some.inj hab], htail⟩

end

/-- The elements of a kind up to the first one of another kind. -/
theorem eq_of_span {p : β → Prop} {xs ys r r' : List β} (hxs : ∀ x ∈ xs, p x) (hys : ∀ y ∈ ys, p y)
    (hr : ∀ b ∈ r.head?, ¬ p b) (hr' : ∀ b ∈ r'.head?, ¬ p b) (heq : xs ++ r = ys ++ r') :
    xs = ys ∧ r = r' := by
  induction xs generalizing ys with
  | nil =>
    cases ys with
    | nil => exact ⟨rfl, heq⟩
    | cons y ys =>
      rw [List.nil_append] at heq
      subst heq
      exact absurd (hys y List.mem_cons_self) (hr y rfl)
  | cons x xs ih =>
    cases ys with
    | nil =>
      rw [List.nil_append] at heq
      subst heq
      exact absurd (hxs x List.mem_cons_self) (hr' x rfl)
    | cons y ys =>
      obtain ⟨rfl, hrest⟩ := List.cons_eq_cons.mp heq
      obtain ⟨rfl, htail⟩ := ih (fun x hx => hxs x (List.mem_cons_of_mem _ hx))
        (fun y hy => hys y (List.mem_cons_of_mem _ hy)) hrest
      exact ⟨rfl, htail⟩

/-- A word between its length and a closing sign. -/
def lengthPrefixed (length : ℕ → List β) (separator : β) (word : List β) : List β :=
  length word.length ++ separator :: (word ++ [separator])

/-- No framed word is the beginning of another one, whatever the words are. -/
theorem isPrefixCode_lengthPrefixed {length : ℕ → List β} {separator : β}
    (hlength : Function.Injective length) (hseparator : ∀ n, separator ∉ length n) :
    IsPrefixCode (lengthPrefixed length separator) := by
  rintro word word' ⟨rest, hrest⟩
  have hspan (n : ℕ) : ∀ b ∈ length n, b ≠ separator := fun b hb heq => hseparator n (heq ▸ hb)
  have hstop (tail : List β) : ∀ b ∈ (separator :: tail).head?, ¬ b ≠ separator :=
    fun b hb hne => hne (Option.some.inj hb).symm
  rw [lengthPrefixed, lengthPrefixed, List.append_assoc, List.cons_append] at hrest
  obtain ⟨hsize, htail⟩ := eq_of_span (hspan _) (hspan _) (hstop _) (hstop _) hrest
  have htail := (List.cons_eq_cons.mp htail).2
  rw [List.append_assoc] at htail
  exact (List.append_inj htail (hlength hsize)).1

section Separated

variable {encode : α → List β} {Tail : List β → Prop} {separator close : β}

theorem intercalate_cons (separator : β) (a : α) (as : List α) :
    [separator].intercalate ((a :: as).map encode) =
      encode a ++ as.flatMap fun b => separator :: encode b := by
  induction as generalizing a with
  | nil => simp [List.intercalate]
  | cons b bs ih =>
    rw [List.map_cons, List.map_cons, List.intercalate_cons_cons, ← List.map_cons, ih,
      List.flatMap_cons, List.append_assoc, List.singleton_append]
    rfl

theorem tail_of_rest (hseparator : ∀ r, Tail (separator :: r)) (hclose : ∀ r, Tail (close :: r))
    (as : List α) (r : List β) :
    Tail ((as.flatMap fun b => separator :: encode b) ++ close :: r) := by
  cases as with
  | nil => exact hclose r
  | cons a as => exact hseparator _

/-- What follows the first word of a list. -/
theorem eq_of_rest (hne : separator ≠ close) (hseparator : ∀ r, Tail (separator :: r))
    (hclose : ∀ r, Tail (close :: r)) {as bs : List α} {r r' : List β}
    (hapart : ∀ a ∈ as, ∀ b ∈ bs, Apart encode Tail a b)
    (heq : (as.flatMap fun a => separator :: encode a) ++ close :: r =
      (bs.flatMap fun b => separator :: encode b) ++ close :: r') : as = bs ∧ r = r' := by
  induction as generalizing bs with
  | nil =>
    cases bs with
    | nil => exact ⟨rfl, (List.cons_eq_cons.mp heq).2⟩
    | cons b bs => exact absurd (List.cons_eq_cons.mp heq).1.symm hne
  | cons a as ih =>
    cases bs with
    | nil => exact absurd (List.cons_eq_cons.mp heq).1 hne
    | cons b bs =>
      rw [List.flatMap_cons, List.flatMap_cons, List.append_assoc, List.append_assoc] at heq
      obtain ⟨rfl, hrest⟩ := hapart a List.mem_cons_self b List.mem_cons_self _ _
        (tail_of_rest hseparator hclose as r) (tail_of_rest hseparator hclose bs r')
        (List.cons_eq_cons.mp heq).2
      obtain ⟨rfl, hr⟩ := ih (fun a ha b hb => hapart a (List.mem_cons_of_mem _ ha) b
        (List.mem_cons_of_mem _ hb)) hrest
      exact ⟨rfl, hr⟩

/-- Words with separators between them, up to the closing sign. -/
theorem eq_of_intercalate (hne : separator ≠ close) (hseparator : ∀ r, Tail (separator :: r))
    (hclose : ∀ r, Tail (close :: r)) {as bs : List α} {r r' : List β}
    (hapart : ∀ a ∈ as, ∀ b ∈ bs, Apart encode Tail a b)
    (hhead : ∀ a ∈ as ++ bs, ∃ c rest, encode a = c :: rest ∧ c ≠ close)
    (heq : [separator].intercalate (as.map encode) ++ close :: r =
      [separator].intercalate (bs.map encode) ++ close :: r') : as = bs ∧ r = r' := by
  cases as with
  | nil =>
    cases bs with
    | nil => exact ⟨rfl, (List.cons_eq_cons.mp heq).2⟩
    | cons b bs =>
      obtain ⟨c, rest, hb, hc⟩ := hhead b List.mem_cons_self
      rw [intercalate_cons, hb] at heq
      exact absurd (List.cons_eq_cons.mp heq).1.symm hc
  | cons a as =>
    cases bs with
    | nil =>
      obtain ⟨c, rest, ha, hc⟩ := hhead a List.mem_cons_self
      rw [intercalate_cons, ha] at heq
      exact absurd (List.cons_eq_cons.mp heq).1 hc
    | cons b bs =>
      rw [intercalate_cons, intercalate_cons] at heq
      exact eq_of_rest hne hseparator hclose hapart (congrArg (separator :: ·) heq)

end Separated

end KiroProxy.PrefixCode
