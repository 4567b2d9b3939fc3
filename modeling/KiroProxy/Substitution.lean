import KiroProxy.Matching

/-!
# Substitution of several patterns

Patterns are replaced one after the other, each at its leftmost non-overlapping
occurrences. A text is cut into letters and names to be replaced; it is clean when, however
many of the names have been replaced, every other occurrence of a pattern is destroyed by
a name that is completed no later and replaced first.
-/

namespace KiroProxy.Substitution

open Matching

/-- A pattern and its replacement. -/
abbrev Name (α : Type) := List α × List α

inductive Piece (α : Type)
  | letter (c : α)
  | name (n : Name α)
  deriving DecidableEq

section Pieces

variable {α : Type}

def Piece.text : Piece α → List α
  | .letter c => [c]
  | .name n => n.1

def Piece.restored : Piece α → List α
  | .letter c => [c]
  | .name n => n.2

def text (pieces : List (Piece α)) : List α :=
  pieces.flatMap Piece.text

/-- The text with every name replaced. -/
def restored (pieces : List (Piece α)) : List α :=
  pieces.flatMap Piece.restored

def letters (text : List α) : List (Piece α) :=
  text.map Piece.letter

@[simp] theorem text_nil : text ([] : List (Piece α)) = [] := rfl

@[simp] theorem text_cons (piece : Piece α) (ps : List (Piece α)) :
    text (piece :: ps) = piece.text ++ text ps := rfl

@[simp] theorem text_append (ps qs : List (Piece α)) : text (ps ++ qs) = text ps ++ text qs :=
  List.flatMap_append

@[simp] theorem restored_nil : restored ([] : List (Piece α)) = [] := rfl

@[simp] theorem restored_cons (piece : Piece α) (ps : List (Piece α)) :
    restored (piece :: ps) = piece.restored ++ restored ps := rfl

@[simp] theorem restored_append (ps qs : List (Piece α)) :
    restored (ps ++ qs) = restored ps ++ restored qs :=
  List.flatMap_append

@[simp] theorem text_letters (l : List α) : text (letters l) = l := by
  induction l with
  | nil => rfl
  | cons c l ih => exact congrArg (c :: ·) ih

@[simp] theorem restored_letters (l : List α) : restored (letters l) = l := by
  induction l with
  | nil => rfl
  | cons c l ih => exact congrArg (c :: ·) ih

theorem letters_append (l l' : List α) : letters (l ++ l') = letters l ++ letters l' :=
  List.map_append

inductive Restores : List (Piece α) → List (Piece α) → Prop
  | nil : Restores [] []
  | keep {ps qs : List (Piece α)} (piece : Piece α) (h : Restores ps qs) :
      Restores (piece :: ps) (piece :: qs)
  | replace {ps qs : List (Piece α)} (n : Name α) (h : Restores ps qs) :
      Restores (.name n :: ps) (letters n.2 ++ qs)

theorem Restores.refl (ps : List (Piece α)) : Restores ps ps := by
  induction ps with
  | nil => exact .nil
  | cons piece ps ih => exact .keep piece ih

theorem Restores.append {ps qs ps' qs' : List (Piece α)} (h : Restores ps qs)
    (h' : Restores ps' qs') : Restores (ps ++ ps') (qs ++ qs') := by
  induction h with
  | nil => exact h'
  | keep piece _ ih => exact .keep piece ih
  | replace n _ ih =>
    rw [List.append_assoc]
    exact .replace n ih

variable {ps qs : List (Piece α)} {n : Name α} {p k : ℕ}

theorem restores_letters_append {l : List α} (h : Restores (letters l ++ ps) qs) :
    ∃ rs, qs = letters l ++ rs ∧ Restores ps rs := by
  induction l generalizing qs with
  | nil => exact ⟨qs, rfl, h⟩
  | cons c l ih =>
    cases h with
    | keep _ h =>
      obtain ⟨rs, rfl, hrs⟩ := ih h
      exact ⟨rs, rfl, hrs⟩

theorem eq_of_restores_letters {l : List α} (h : Restores (letters l) qs) : qs = letters l := by
  rw [← List.append_nil (letters l)] at h
  obtain ⟨rs, rfl, hrs⟩ := restores_letters_append h
  cases hrs
  exact List.append_nil _

theorem Restores.trans {ps qs rs : List (Piece α)} (h : Restores ps qs) (h' : Restores qs rs) :
    Restores ps rs := by
  induction h generalizing rs with
  | nil => exact h'
  | keep piece _ ih =>
    cases h' with
    | keep _ h' => exact .keep _ (ih h')
    | replace n h' => exact .replace n (ih h')
  | replace n _ ih =>
    obtain ⟨ts, rfl, hts⟩ := restores_letters_append h'
    exact .replace n (ih hts)

theorem restores_restored (ps : List (Piece α)) : Restores ps (letters (restored ps)) := by
  induction ps with
  | nil => exact .nil
  | cons piece ps ih =>
    rw [restored_cons, letters_append]
    cases piece with
    | letter c => exact .keep _ ih
    | name n => exact .replace n ih

theorem restored_eq_of_restores (h : Restores ps qs) : restored qs = restored ps := by
  induction h with
  | nil => rfl
  | keep piece _ ih => rw [restored_cons, restored_cons, ih]
  | replace n _ ih =>
    rw [restored_append, restored_letters, restored_cons, ih]
    rfl

def NameAt (ps : List (Piece α)) (n : Name α) (p : ℕ) : Prop :=
  ∃ before after, ps = before ++ .name n :: after ∧ (text before).length = p

theorem NameAt.add_length_le (h : NameAt ps n p) : p + n.1.length ≤ (text ps).length := by
  obtain ⟨before, after, rfl, rfl⟩ := h
  simp only [text_append, text_cons, Piece.text, List.length_append]
  omega

theorem nameAt_append (h : NameAt (ps ++ qs) n p) :
    NameAt ps n p ∨ ∃ q, p = (text ps).length + q ∧ NameAt qs n q := by
  obtain ⟨before, after, heq, rfl⟩ := h
  rcases List.append_eq_append_iff.mp heq with ⟨as, rfl, hqs⟩ | ⟨bs, rfl, hbs⟩
  · exact .inr ⟨(text as).length, by simp, as, after, hqs, rfl⟩
  · cases bs with
    | nil =>
      rw [List.nil_append] at hbs
      exact .inr ⟨0, by simp, [], after, hbs.symm, rfl⟩
    | cons b bs =>
      rw [List.cons_append] at hbs
      cases hbs
      exact .inl ⟨before, bs, rfl, rfl⟩

theorem restores_append {ps ps' qs : List (Piece α)} (h : Restores (ps ++ ps') qs) :
    ∃ rs rs', qs = rs ++ rs' ∧ Restores ps rs ∧ Restores ps' rs' := by
  induction ps generalizing qs with
  | nil => exact ⟨[], qs, rfl, .nil, h⟩
  | cons piece ps ih =>
    rw [List.cons_append] at h
    cases h with
    | keep _ h =>
      obtain ⟨rs, rs', rfl, hrs, hrs'⟩ := ih h
      exact ⟨piece :: rs, rs', rfl, .keep piece hrs, hrs'⟩
    | replace n h =>
      obtain ⟨rs, rs', rfl, hrs, hrs'⟩ := ih h
      exact ⟨letters n.2 ++ rs, rs', by rw [List.append_assoc], .replace n hrs, hrs'⟩

theorem NameAt.append_right (h : NameAt ps n p) (qs : List (Piece α)) : NameAt (ps ++ qs) n p := by
  obtain ⟨before, after, rfl, rfl⟩ := h
  exact ⟨before, after ++ qs, by simp, rfl⟩

theorem nameAt_cons {piece : Piece α} (h : NameAt (piece :: ps) n p) :
    p = 0 ∧ piece = .name n ∨ piece.text.length ≤ p := by
  obtain ⟨before, after, heq, rfl⟩ := h
  cases before with
  | nil =>
    cases heq
    exact .inl ⟨rfl, rfl⟩
  | cons b before =>
    cases heq
    right
    rw [text_cons, List.length_append]
    omega

theorem NameAt.mem (h : NameAt ps n p) : .name n ∈ ps := by
  obtain ⟨before, after, rfl, -⟩ := h
  exact List.mem_append_right _ List.mem_cons_self

/-- A name that ends before a cut inside the next piece is left of that piece. -/
theorem nameAt_of_end_le {ps rs : List (Piece α)} {piece : Piece α}
    (h : NameAt (ps ++ piece :: rs) n p) (hend : p + n.1.length ≤ (text ps).length + k)
    (hk : k < piece.text.length) : NameAt ps n p := by
  rcases nameAt_append h with hleft | ⟨q, rfl, hright⟩
  · exact hleft
  · rcases nameAt_cons hright with ⟨rfl, rfl⟩ | hq
    · rw [Piece.text] at hk
      omega
    · omega

theorem name_notMem_letters (n : Name α) (l : List α) : .name n ∉ letters l := by
  intro h
  obtain ⟨c, -, hc⟩ := List.mem_map.mp h
  cases hc

theorem text_eq_restored (h : ∀ m, .name m ∉ ps) : text ps = restored ps := by
  induction ps with
  | nil => rfl
  | cons piece ps ih =>
    rw [text_cons, restored_cons, ih fun m hm => h m (List.mem_cons_of_mem _ hm)]
    cases piece with
    | letter c => rfl
    | name n => exact absurd List.mem_cons_self (h n)

theorem name_mem_of_restores (h : Restores ps qs) (hn : .name n ∈ qs) : .name n ∈ ps := by
  induction h with
  | nil => exact hn
  | keep piece _ ih =>
    rcases List.mem_cons.mp hn with rfl | hn
    · exact List.mem_cons_self
    · exact List.mem_cons_of_mem _ (ih hn)
  | replace m _ ih =>
    rcases List.mem_append.mp hn with hn | hn
    · exact absurd hn (name_notMem_letters n _)
    · exact List.mem_cons_of_mem _ (ih hn)

/-- A position inside the first piece of the list, or its end. -/
def Cut (ps : List (Piece α)) (k : ℕ) : Prop :=
  ps = [] ∧ k = 0 ∨ ∃ piece rest, ps = piece :: rest ∧ k < piece.text.length

theorem cut_zero (h : ∀ n, .name n ∈ ps → n.1 ≠ []) : Cut ps 0 := by
  cases ps with
  | nil => exact .inl ⟨rfl, rfl⟩
  | cons piece ps =>
    refine .inr ⟨piece, ps, rfl, ?_⟩
    cases piece with
    | letter c => exact Nat.one_pos
    | name n => exact List.length_pos_of_ne_nil (h n List.mem_cons_self)

theorem Cut.le_length (h : Cut ps k) : k ≤ (text ps).length := by
  rcases h with ⟨-, rfl⟩ | ⟨piece, rest, rfl, hk⟩
  · exact Nat.zero_le _
  · rw [text_cons, List.length_append]
    omega

/-- An incomplete name at the cut is held back. -/
theorem Cut.le_held {names : List (Name α)} {held : List α → ℕ}
    (hheld : ∀ l, HoldsBack (names.map Prod.fst) l (held l)) (hmem : ∀ n, .name n ∈ ps → n ∈ names)
    (hcut : Cut ps k) (head : List α) : k ≤ held (head ++ (text ps).take k) := by
  rcases hcut with ⟨rfl, rfl⟩ | ⟨piece, rest, rfl, hk⟩
  · exact Nat.zero_le _
  · rw [text_cons, List.take_append_of_le_length hk.le]
    cases piece with
    | letter c =>
      rw [Piece.text, List.length_singleton] at hk
      omega
    | name n =>
      exact (hheld _).2 n.1 (List.mem_map_of_mem (hmem n List.mem_cons_self)) k hk
        (List.suffix_append _ _)

theorem exists_cut {pos : ℕ} (h : pos ≤ (text ps).length) :
    ∃ left right k, ps = left ++ right ∧ Cut right k ∧ (text left).length + k = pos := by
  induction ps generalizing pos with
  | nil => exact ⟨[], [], 0, rfl, .inl ⟨rfl, rfl⟩, (Nat.le_zero.mp h).symm⟩
  | cons piece ps ih =>
    by_cases hpos : pos < piece.text.length
    · exact ⟨[], piece :: ps, pos, rfl, .inr ⟨piece, ps, rfl, hpos⟩, by simp⟩
    · rw [text_cons, List.length_append] at h
      obtain ⟨left, right, k, rfl, hcut, hk⟩ :=
        ih (show pos - piece.text.length ≤ (text ps).length by omega)
      refine ⟨piece :: left, right, k, rfl, hcut, ?_⟩
      rw [text_cons, List.length_append]
      omega

/-- The window that a chunk completes, cut into pieces. -/
theorem window_eq {state : List α × List α} {done chunk remaining : List α}
    {left right : List (Piece α)} {k k' : ℕ} (hcut : Cut (left ++ right) k)
    (hsplit : state.1 ++ state.2 = done ++ (text (left ++ right)).take k)
    (hle : state.1.length ≤ done.length)
    (hremaining : (text (left ++ right)).drop k = chunk ++ remaining)
    (hk' : (text left).length + k' = k + chunk.length) :
    state.2 ++ chunk = done.drop state.1.length ++ text left ++ (text right).take k' ∧
      (text right).drop k' = remaining ∧ state.1 ++ done.drop state.1.length = done := by
  have hwhole : text left ++ text right = (text (left ++ right)).take k ++ (chunk ++ remaining) := by
    rw [← hremaining, List.take_append_drop, text_append]
  have hlen : ((text (left ++ right)).take k ++ chunk).length = (text left).length + k' := by
    rw [List.length_append, List.length_take, Nat.min_eq_left hcut.le_length, hk']
  rw [← List.append_assoc] at hwhole
  have htake := congrArg (List.take ((text left).length + k')) hwhole
  rw [List.take_length_add_append, ← hlen, List.take_left] at htake
  have hdrop := congrArg (List.drop ((text left).length + k')) hwhole
  rw [List.drop_length_add_append, ← hlen, List.drop_left] at hdrop
  have hhead : state.1 = done.take state.1.length := by
    have h := congrArg (List.take state.1.length) hsplit
    rwa [List.take_left, List.take_append_of_le_length hle] at h
  refine ⟨?_, hdrop, ?_⟩
  · have h := congrArg (List.drop state.1.length) hsplit
    rw [List.drop_left, List.drop_append_of_le_length hle] at h
    rw [h, List.append_assoc, ← htake, List.append_assoc]
  · conv_lhs => rw [hhead]
    rw [List.length_take, Nat.min_eq_left hle, List.take_append_drop]

end Pieces

section Clean

variable {α : Type} [DecidableEq α] {names : List (Name α)}

/-- An occurrence of a name that another piece destroys: the piece overlaps it, ends no
later, and is replaced first. -/
def Destroyed (names : List (Name α)) (ps : List (Piece α)) (n : Name α) (p : ℕ) : Prop :=
  ∃ n' p', NameAt ps n' p' ∧ p < p' + n'.1.length ∧ p' + n'.1.length ≤ p + n.1.length ∧
    (names.idxOf n' < names.idxOf n ∨ n' = n ∧ p' < p)

def Settled (names : List (Name α)) (ps : List (Piece α)) : Prop :=
  ∀ n ∈ names, ∀ p, OccursAt n.1 (text ps) p → NameAt ps n p ∨ Destroyed names ps n p

/-- However many of the names have been replaced, every occurrence is a name still to be
replaced or is destroyed by one. -/
def Clean (names : List (Name α)) (ps : List (Piece α)) : Prop :=
  ∀ qs, Restores ps qs → Settled names qs

theorem Clean.restores {ps qs : List (Piece α)} (h : Clean names ps) (hqs : Restores ps qs) :
    Clean names qs :=
  fun rs hrs => h rs (hqs.trans hrs)

theorem Clean.tail {ps qs : List (Piece α)} (hnames : ∀ n ∈ names, n.1 ≠ [])
    (h : Clean names (ps ++ qs)) : Clean names qs := by
  intro rs hrs n hn p hocc
  have hwhole := h (ps ++ rs) ((Restores.refl ps).append hrs) n hn ((text ps).length + p) (by
    rw [text_append]
    exact occursAt_append_left.mpr hocc)
  rcases hwhole with hname | ⟨n', p', hname', hlt, hle, horder⟩
  · rcases nameAt_append hname with hname | ⟨q, hq, hname⟩
    · have hend := hname.add_length_le
      have hpos := List.length_pos_of_ne_nil (hnames n hn)
      omega
    · obtain rfl : p = q := by omega
      exact .inl hname
  · rcases nameAt_append hname' with hpiece | ⟨q, rfl, hpiece⟩
    · have hend := hpiece.add_length_le
      omega
    · refine .inr ⟨n', q, hpiece, by omega, by omega, ?_⟩
      exact horder.imp_right fun h => ⟨h.1, by omega⟩

theorem Clean.cut {ps rs : List (Piece α)} {piece : Piece α} {k : ℕ}
    (hnames : ∀ n ∈ names, n.1 ≠ []) (h : Clean names (ps ++ piece :: rs))
    (hk : k < piece.text.length) : Clean names (ps ++ letters (piece.text.take k)) := by
  intro qs hqs n hn p hocc
  obtain ⟨ps', ls, rfl, hps, hls⟩ := restores_append hqs
  obtain rfl := eq_of_restores_letters hls
  rw [text_append, text_letters] at hocc
  have hend := hocc.add_length_le (hnames n hn)
  have hlen : (piece.text.take k).length = k := by
    rw [List.length_take]
    omega
  rw [List.length_append, hlen] at hend
  have hwhole := h (ps' ++ piece :: rs) (hps.append (Restores.refl _)) n hn p (by
    have happend := hocc.append (piece.text.drop k ++ text rs)
      (by rw [List.length_append, hlen]; omega)
    rwa [List.append_assoc, ← List.append_assoc (piece.text.take k), List.take_append_drop,
      ← text_cons, ← text_append] at happend)
  rcases hwhole with hname | ⟨n', p', hname', hlt, hle, horder⟩
  · exact .inl ((nameAt_of_end_le hname hend hk).append_right _)
  · exact .inr ⟨n', p', (nameAt_of_end_le hname' (by omega) hk).append_right _, hlt, hle, horder⟩

end Clean

section Replace

variable {α : Type} [DecidableEq α] {names : List (Name α)}

/-- The first argument counts the letters of the last occurrence that are still to pass. -/
def replaceFrom (name : Name α) : ℕ → List α → List α
  | _, [] => []
  | skip + 1, _ :: text => replaceFrom name skip text
  | 0, c :: text =>
    if name.1 <+: c :: text then name.2 ++ replaceFrom name (name.1.length - 1) text
    else c :: replaceFrom name 0 text

def replace (name : Name α) (text : List α) : List α :=
  replaceFrom name 0 text

def replaceAll (names : List (Name α)) (text : List α) : List α :=
  names.foldl (fun text name => replace name text) text

@[simp] theorem replaceAll_nil (names : List (Name α)) : replaceAll names [] = [] := by
  induction names with
  | nil => rfl
  | cons name names ih => exact ih

theorem replaceFrom_eq_replace_drop (name : Name α) (skip : ℕ) (text : List α) :
    replaceFrom name skip text = replace name (text.drop skip) := by
  induction skip generalizing text with
  | zero => rfl
  | succ skip ih =>
    cases text with
    | nil => simp [replaceFrom, replace]
    | cons c text => rw [replaceFrom, ih, List.drop_succ_cons]

theorem replace_append_self {name : Name α} (hname : name.1 ≠ []) (text : List α) :
    replace name (name.1 ++ text) = name.2 ++ replace name text := by
  obtain ⟨pat, by'⟩ := name
  obtain ⟨c, pat, rfl⟩ := List.exists_cons_of_ne_nil hname
  rw [replace, List.cons_append, replaceFrom, ← List.cons_append, if_pos (List.prefix_append _ _),
    replaceFrom_eq_replace_drop]
  simp

theorem replace_append_of_not_occursAt {name : Name α} {head text : List α}
    (h : ∀ p < head.length, ¬ OccursAt name.1 (head ++ text) p) :
    replace name (head ++ text) = head ++ replace name text := by
  induction head with
  | nil => rfl
  | cons c head ih =>
    have hhead : ¬ name.1 <+: c :: (head ++ text) := h 0 (Nat.succ_pos _)
    rw [List.cons_append, replace, replaceFrom, if_neg hhead, List.cons_append]
    exact congrArg (c :: ·) (ih fun p hp hocc => h (p + 1) (Nat.succ_lt_succ hp) hocc)

def restoreName (n : Name α) (ps : List (Piece α)) : List (Piece α) :=
  ps.flatMap fun piece => if piece = .name n then letters n.2 else [piece]

theorem restores_restoreName (n : Name α) (ps : List (Piece α)) :
    Restores ps (restoreName n ps) := by
  induction ps with
  | nil => exact .nil
  | cons piece ps ih =>
    rw [restoreName, List.flatMap_cons]
    split_ifs with hpiece
    · subst hpiece
      exact .replace n ih
    · exact .keep piece ih

theorem mem_restoreName {n m : Name α} {ps : List (Piece α)}
    (h : .name m ∈ restoreName n ps) : .name m ∈ ps ∧ m ≠ n := by
  obtain ⟨piece, hpiece, hm⟩ := List.mem_flatMap.mp h
  split_ifs at hm with heq
  · exact absurd hm (name_notMem_letters m _)
  · obtain rfl := List.mem_singleton.mp hm
    exact ⟨hpiece, fun hmn => heq (hmn ▸ rfl)⟩

/-- Replacing a name that comes before all names left among the pieces. -/
theorem replace_text {n : Name α} {ps : List (Piece α)} (hnames : ∀ m ∈ names, m.1 ≠ [])
    (hn : n ∈ names) (hclean : Clean names ps)
    (hfirst : ∀ m, .name m ∈ ps → names.idxOf n ≤ names.idxOf m) :
    replace n (text ps) = text (restoreName n ps) := by
  induction ps with
  | nil => rfl
  | cons piece ps ih =>
    have hclean' : Clean names ([piece] ++ ps) := hclean
    have htail := ih (hclean'.tail hnames) fun m hm => hfirst m (List.mem_cons_of_mem _ hm)
    have hsettled := hclean _ (Restores.refl _) n hn
    have hexpand : text (restoreName n (piece :: ps)) =
        text (if piece = .name n then letters n.2 else [piece]) ++ text (restoreName n ps) := by
      rw [restoreName, List.flatMap_cons, text_append]
      rfl
    rw [hexpand, text_cons]
    by_cases hpiece : piece = .name n
    · subst hpiece
      rw [if_pos rfl, text_letters, Piece.text, replace_append_self (hnames n hn), htail]
    · have hfree : ∀ p < piece.text.length, ¬ OccursAt n.1 (piece.text ++ text ps) p := by
        intro p hp hocc
        rcases hsettled p hocc with hname | ⟨n', p', hname', -, -, hidx | ⟨rfl, hlt⟩⟩
        · rcases nameAt_cons hname with ⟨-, hpiece'⟩ | hle
          · exact hpiece hpiece'
          · omega
        · exact absurd (hfirst n' hname'.mem) (by omega)
        · rcases nameAt_cons hname' with ⟨-, hpiece'⟩ | hle
          · exact hpiece hpiece'
          · omega
      rw [if_neg hpiece, replace_append_of_not_occursAt hfree, htail, text_cons, text_nil,
        List.append_nil]

theorem replaceAll_text_of_append {done rest : List (Name α)} {ps : List (Piece α)}
    (hnames : ∀ m ∈ done ++ rest, m.1 ≠ []) (hnodup : (done ++ rest).Nodup)
    (hclean : Clean (done ++ rest) ps) (hmem : ∀ m, .name m ∈ ps → m ∈ rest) :
    replaceAll rest (text ps) = restored ps := by
  induction rest generalizing done ps with
  | nil => exact text_eq_restored fun m hm => absurd (hmem m hm) List.not_mem_nil
  | cons n rest ih =>
    have hidx : ∀ m ∈ n :: rest, (done ++ n :: rest).idxOf m = done.length + (n :: rest).idxOf m := by
      intro m hm
      refine List.idxOf_append_of_notMem fun hdone => ?_
      exact (List.nodup_append.mp hnodup).2.2 m hdone m hm rfl
    have hfirst : ∀ m, .name m ∈ ps →
        (done ++ n :: rest).idxOf n ≤ (done ++ n :: rest).idxOf m := by
      intro m hm
      rw [hidx n List.mem_cons_self, hidx m (hmem m hm), List.idxOf_cons_self]
      omega
    have hstep := replace_text hnames (List.mem_append_right _ List.mem_cons_self) hclean hfirst
    rw [replaceAll, List.foldl_cons, hstep, ← restored_eq_of_restores (restores_restoreName n ps)]
    have hassoc : done ++ n :: rest = (done ++ [n]) ++ rest := by simp
    rw [hassoc] at hnames hnodup hclean
    refine ih hnames hnodup (hclean.restores (restores_restoreName n ps)) fun m hm => ?_
    obtain ⟨hm, hne⟩ := mem_restoreName hm
    exact (List.mem_cons.mp (hmem m hm)).resolve_left hne

theorem replaceAll_text {ps : List (Piece α)} (hnames : ∀ m ∈ names, m.1 ≠ [])
    (hnodup : names.Nodup) (hclean : Clean names ps) (hmem : ∀ m, .name m ∈ ps → m ∈ names) :
    replaceAll names (text ps) = restored ps :=
  @replaceAll_text_of_append α _ [] names ps hnames hnodup hclean hmem

end Replace

section Stream

variable {α : Type} [DecidableEq α] {names : List (Name α)} {held : List α → ℕ}

/-- The text sent on and the text held back. Each chunk is replaced together with the text
held back before it. -/
def feed (names : List (Name α)) (held : List α → ℕ) (state : List α × List α) (chunk : List α) :
    List α × List α :=
  let text := replaceAll names (state.2 ++ chunk)
  (state.1 ++ text.take (text.length - held text), text.drop (text.length - held text))

/-- All that has been received is replaced, up to a name that is not yet complete. -/
def Fed (ps : List (Piece α)) (state : List α × List α) (remaining : List α) : Prop :=
  ∃ done rest k, Restores ps (letters done ++ rest) ∧ Cut rest k ∧
    state.1 ++ state.2 = done ++ (text rest).take k ∧ state.1.length ≤ done.length ∧
    (text rest).drop k = remaining

theorem Cut.clean {ps qs : List (Piece α)} {k : ℕ} (hnames : ∀ n ∈ names, n.1 ≠ [])
    (hclean : Clean names (ps ++ qs)) (hcut : Cut qs k) :
    Clean names (ps ++ letters ((text qs).take k)) := by
  rcases hcut with ⟨rfl, rfl⟩ | ⟨piece, rest, rfl, hk⟩
  · exact hclean
  · rw [text_cons, List.take_append_of_le_length hk.le]
    exact hclean.cut hnames hk

theorem Fed.step {ps : List (Piece α)} {state : List α × List α} {chunk remaining : List α}
    (hnames : ∀ n ∈ names, n.1 ≠ []) (hnodup : names.Nodup) (hclean : Clean names ps)
    (hmem : ∀ n, .name n ∈ ps → n ∈ names)
    (hheld : ∀ l, HoldsBack (names.map Prod.fst) l (held l))
    (h : Fed ps state (chunk ++ remaining)) : Fed ps (feed names held state chunk) remaining := by
  obtain ⟨done, rest, k, hrestores, hcut, hsplit, hle, hremaining⟩ := h
  have hlen := congrArg List.length hremaining
  rw [List.length_drop, List.length_append] at hlen
  have hkle := hcut.le_length
  obtain ⟨left, right, k', rfl, hcut', hk'⟩ :=
    exists_cut (show k + chunk.length ≤ (text rest).length by omega)
  obtain ⟨hwindow, hrest, hdone⟩ := window_eq hcut hsplit hle hremaining hk'
  have hnamed : ∀ n, .name n ∈ left ++ right → n ∈ names := fun n hn =>
    hmem n (name_mem_of_restores hrestores (List.mem_append_right _ hn))
  -- the window as pieces, with an incomplete name at its end taken as letters
  have hpieces : Clean names
      (letters (done.drop state.1.length) ++ left ++ letters ((text right).take k')) := by
    have hall := hclean.restores hrestores
    rw [← hdone, letters_append, List.append_assoc, ← List.append_assoc _ left] at hall
    exact hcut'.clean hnames (hall.tail hnames)
  have htext : replaceAll names (state.2 ++ chunk) =
      done.drop state.1.length ++ restored left ++ (text right).take k' := by
    have hreplaced := replaceAll_text hnames hnodup hpieces fun n hn => by
      simp only [List.mem_append] at hn
      rcases hn with (hn | hn) | hn
      · exact absurd hn (name_notMem_letters n _)
      · exact hnamed n (List.mem_append_left _ hn)
      · exact absurd hn (name_notMem_letters n _)
    simpa only [text_append, restored_append, text_letters, restored_letters, ← hwindow]
      using hreplaced
  have hkheld := hcut'.le_held hheld (fun n hn => hnamed n (List.mem_append_right _ hn))
    (done.drop state.1.length ++ restored left)
  refine ⟨done ++ restored left, right, k', ?_, hcut', ?_, ?_, hrest⟩
  · refine hrestores.trans ?_
    rw [letters_append, List.append_assoc]
    exact (Restores.refl _).append ((restores_restored left).append (Restores.refl _))
  · simp only [feed, htext]
    rw [List.append_assoc, List.take_append_drop, List.append_assoc, ← List.append_assoc state.1,
      hdone, List.append_assoc]
  · simp only [feed, htext]
    have hdoneLength := congrArg List.length hdone
    simp only [List.length_append, List.length_take] at hdoneLength hkheld ⊢
    have := hcut'.le_length
    omega

/-- A clean text fed in any chunks is replaced as it is when fed whole. -/
theorem foldl_feed_eq {ps : List (Piece α)} {chunks : List (List α)}
    (hnames : ∀ n ∈ names, n.1 ≠ []) (hnodup : names.Nodup) (hclean : Clean names ps)
    (hmem : ∀ n, .name n ∈ ps → n ∈ names)
    (hheld : ∀ l, HoldsBack (names.map Prod.fst) l (held l)) (htext : text ps = chunks.flatten) :
    (chunks.foldl (feed names held) ([], [])).1 ++ (chunks.foldl (feed names held) ([], [])).2 =
      replaceAll names chunks.flatten := by
  have hrun : ∀ (chunks : List (List α)) (state : List α × List α),
      Fed ps state chunks.flatten → Fed ps (chunks.foldl (feed names held) state) [] := by
    intro chunks
    induction chunks with
    | nil => exact fun state h => h
    | cons chunk chunks ih =>
      exact fun state h => ih _ (Fed.step hnames hnodup hclean hmem hheld h)
  have hinit : Fed ps ([], []) chunks.flatten :=
    ⟨[], ps, 0, Restores.refl ps, cut_zero fun n hn => hnames n (hmem n hn), rfl, le_rfl, htext⟩
  obtain ⟨done, rest, k, hrestores, hcut, hsplit, -, hremaining⟩ := hrun chunks _ hinit
  rw [hsplit, ← htext, replaceAll_text hnames hnodup hclean hmem, ← restored_eq_of_restores hrestores]
  rcases hcut with ⟨rfl, rfl⟩ | ⟨piece, rest, rfl, hk⟩
  · simp
  · have hend := List.drop_eq_nil_iff.mp hremaining
    rw [text_cons, List.length_append] at hend
    omega

end Stream

end KiroProxy.Substitution
