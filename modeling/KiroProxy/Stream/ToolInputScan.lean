import KiroProxy.JsonGrammar
import KiroProxy.Transition
import KiroProxy.Stream.ToolInput
import KiroProxy.JsonPrint

/-!
# What the scanner of tool inputs forwards

However an input is cut into fragments, the fragments that the scanner lets through make up one
prefix of it: all of the input, or its first top-level object or array. A value inside an object or
array leaves the scanner as it was, so that the first one ends where its own bracket closes.
-/

namespace KiroProxy.Stream

namespace ToolInputScanner

/-- What one character does to a scanner that looks for the end of the value. -/
inductive Scanned
  | more (s : ToolInputScanner)
  | complete (s : ToolInputScanner)
  | unstructured
  deriving DecidableEq, Repr

def scanChar (s : ToolInputScanner) (c : Char) : Scanned :=
  if s.inString then
    .more (if s.escape then { s with escape := false }
      else if c = '\\' then { s with escape := true }
      else if c = '"' then { s with inString := false }
      else s)
  else if c = '{' ∨ c = '[' then
    .more { s with started := true, depth := (s.depth + 1) % 2 ^ 32 }
  else if c = '"' ∧ s.started then .more { s with inString := true }
  else if (c = '}' ∨ c = ']') ∧ s.started then
    if s.depth - 1 = 0 then .complete { s with depth := s.depth - 1 }
    else .more { s with depth := s.depth - 1 }
  else if isAsciiWhitespace c then .more s
  else if !s.started then .unstructured
  else .more s

variable {s s' : ToolInputScanner} {c : Char}

theorem feedLoop_cons (length : ℕ) (s : ToolInputScanner) (offset : ℕ) (c : Char)
    (rest : List Char) : feedLoop length s offset (c :: rest) =
      match scanChar s c with
      | .more s => feedLoop length s (offset + 1) rest
      | .complete s => (offset + 1, { s with
          completeLen := some (s.scannedLen + (offset + 1))
          scannedLen := s.scannedLen + length })
      | .unstructured =>
        (length, { s with unstructured := true, scannedLen := s.scannedLen + length }) := by
  rw [feedLoop]
  unfold scanChar
  dsimp only
  split_ifs <;> rfl

/-- The scanner is still looking for the end of the value. -/
def Looking (s : ToolInputScanner) : Prop :=
  s.unstructured = false ∧ s.completeLen = none

/-- The value has ended. -/
def Closed (s : ToolInputScanner) : Prop :=
  s.unstructured = false ∧ s.completeLen.isSome = true

theorem scanChar_eq_more (h : scanChar s c = .more s') (hs : s.Looking) : s'.Looking := by
  unfold scanChar at h
  split_ifs at h <;> cases h <;> exact hs

theorem scanChar_eq_complete (h : scanChar s c = .complete s') (hs : s.Looking) : s'.Looking := by
  unfold scanChar at h
  split_ifs at h
  cases h
  exact hs

theorem feed_of_looking (hs : s.Looking) (fragment : List Char) :
    s.feed fragment = feedLoop fragment.length s 0 fragment := by
  rw [feed, if_neg (by simp [hs.1]), if_neg (by simp [hs.2])]

def Scanned.skip (k : ℕ) : Scanned → Scanned
  | .more s => .more { s with scannedLen := s.scannedLen + k }
  | .complete s => .complete { s with scannedLen := s.scannedLen + k }
  | .unstructured => .unstructured

theorem scanChar_skip (k : ℕ) (s : ToolInputScanner) (c : Char) :
    scanChar { s with scannedLen := s.scannedLen + k } c = (scanChar s c).skip k := by
  unfold scanChar
  split_ifs <;> rfl

theorem feedLoop_add (k length : ℕ) (s : ToolInputScanner) (offset : ℕ) (text : List Char) :
    feedLoop (k + length) s (k + offset) text =
      (k + (feedLoop length { s with scannedLen := s.scannedLen + k } offset text).1,
        (feedLoop length { s with scannedLen := s.scannedLen + k } offset text).2) := by
  induction text generalizing s offset with
  | nil => simp [feedLoop, Nat.add_assoc]
  | cons c rest ih =>
    rw [feedLoop_cons, feedLoop_cons, scanChar_skip]
    cases scanChar s c with
    | more s' =>
      have hrest := ih s' (offset + 1)
      rwa [← Nat.add_assoc] at hrest
    | complete s' => simp [Scanned.skip, Nat.add_assoc]
    | unstructured => simp [Scanned.skip, Nat.add_assoc]

theorem feedLoop_append {length offset : ℕ} {a : List Char} (hs : s.Looking)
    (hlength : offset + a.length = length) (b : List Char) :
    feedLoop (length + b.length) s offset (a ++ b) =
      ((feedLoop length s offset a).1 + ((feedLoop length s offset a).2.feed b).1,
        ((feedLoop length s offset a).2.feed b).2) := by
  induction a generalizing s offset with
  | nil =>
    obtain rfl : offset = length := hlength
    have hlooking : Looking { s with scannedLen := s.scannedLen + offset } := hs
    have hadd := feedLoop_add offset b.length s 0 b
    rw [List.nil_append, feedLoop, feed_of_looking hlooking]
    exact hadd
  | cons c rest ih =>
    rw [List.cons_append, feedLoop_cons, feedLoop_cons]
    cases hscan : scanChar s c with
    | more s' =>
      apply ih (scanChar_eq_more hscan hs)
      rw [← hlength, List.length_cons]
      omega
    | complete s' =>
      have hopen : s'.unstructured = false := (scanChar_eq_complete hscan hs).1
      simp [feed, hopen, Nat.add_assoc]
    | unstructured => simp [feed, Nat.add_assoc]

theorem feed_append (s : ToolInputScanner) (a b : List Char) :
    s.feed (a ++ b) = ((s.feed a).1 + ((s.feed a).2.feed b).1, ((s.feed a).2.feed b).2) := by
  by_cases hunstructured : s.unstructured = true
  · simp [feed, hunstructured, Nat.add_assoc]
  · rw [Bool.not_eq_true] at hunstructured
    cases hcomplete : s.completeLen with
    | some length => simp [feed, hunstructured, hcomplete, Nat.add_assoc]
    | none =>
      have hs : s.Looking := ⟨hunstructured, hcomplete⟩
      rw [feed_of_looking hs, feed_of_looking hs, List.length_append]
      exact feedLoop_append hs (Nat.zero_add _) b

theorem feedLoop_length_or_closed {length offset : ℕ} (hs : s.Looking) (text : List Char) :
    (feedLoop length s offset text).1 = length ∨ (feedLoop length s offset text).2.Closed := by
  induction text generalizing s offset with
  | nil => exact .inl rfl
  | cons c rest ih =>
    rw [feedLoop_cons]
    cases hscan : scanChar s c with
    | more s' => exact ih (scanChar_eq_more hscan hs)
    | complete s' => exact .inr ⟨(scanChar_eq_complete hscan hs).1, rfl⟩
    | unstructured => exact .inl rfl

theorem feed_length_or_closed (s : ToolInputScanner) (text : List Char) :
    (s.feed text).1 = text.length ∨ (s.feed text).2.Closed := by
  by_cases hunstructured : s.unstructured = true
  · exact .inl (by simp [feed, hunstructured])
  · rw [Bool.not_eq_true] at hunstructured
    cases hcomplete : s.completeLen with
    | some length => exact .inr (by simp [feed, Closed, hunstructured, hcomplete])
    | none =>
      have hs : s.Looking := ⟨hunstructured, hcomplete⟩
      rw [feed_of_looking hs]
      exact feedLoop_length_or_closed hs text

variable {text : List Char} {n : ℕ} {body : List Char}

theorem feedLoop_le {length offset : ℕ} (hs : s.Looking) (hlength : offset + text.length = length) :
    (feedLoop length s offset text).1 ≤ length := by
  induction text generalizing s offset with
  | nil => exact le_rfl
  | cons c rest ih =>
    rw [List.length_cons] at hlength
    rw [feedLoop_cons]
    cases hscan : scanChar s c with
    | more s' => exact ih (scanChar_eq_more hscan hs) (by omega)
    | complete s' =>
      dsimp only
      omega
    | unstructured => exact le_rfl

theorem feed_new_le (text : List Char) : (feed {} text).1 ≤ text.length := by
  rw [feed_of_looking ⟨rfl, rfl⟩]
  exact feedLoop_le ⟨rfl, rfl⟩ (Nat.zero_add _)

theorem feed_of_closed (hs : s.Closed) (text : List Char) : (s.feed text).1 = 0 := by
  simp [feed, hs.1, hs.2]

/-- The part of an input that a new scanner lets through. -/
def forwarded (input : List Char) : List Char :=
  input.take (feed {} input).1

theorem forwarded_append (a b : List Char) :
    forwarded (a ++ b) = forwarded a ++ b.take ((feed {} a).2.feed b).1 := by
  rw [forwarded, forwarded, feed_append, List.take_append]
  rcases feed_length_or_closed {} a with hlength | hclosed
  · rw [hlength, List.take_of_length_le (Nat.le_add_right _ _), List.take_length,
      Nat.add_sub_cancel_left]
  · rw [feed_of_closed hclosed, Nat.add_zero, Nat.sub_eq_zero_of_le (feed_new_le a)]

def feedAll : ToolInputScanner → List (List Char) → List (List Char)
  | _, [] => []
  | s, fragment :: fragments =>
    fragment.take (s.feed fragment).1 :: feedAll (s.feed fragment).2 fragments

theorem forwarded_append_feedAll (input : List Char) (fragments : List (List Char)) :
    forwarded input ++ (feedAll (feed {} input).2 fragments).flatten =
      forwarded (input ++ fragments.flatten) := by
  induction fragments generalizing input with
  | nil => rw [feedAll, List.flatten_nil, List.append_nil, List.append_nil]
  | cons fragment fragments ih =>
    have hnext : (feed {} (input ++ fragment)).2 = ((feed {} input).2.feed fragment).2 := by
      rw [feed_append]
    rw [feedAll, List.flatten_cons, ← List.append_assoc, ← forwarded_append, ← hnext, ih,
      List.flatten_cons, List.append_assoc]

theorem flatten_feedAll (fragments : List (List Char)) :
    (feedAll {} fragments).flatten = forwarded fragments.flatten :=
  forwarded_append_feedAll [] fragments

open JsonText JsonGrammar

def scanStep (s : ToolInputScanner) (c : Char) : Option ToolInputScanner :=
  match scanChar s c with
  | .more s' => some s'
  | _ => none

theorem scanStep_eq_some : scanStep s c = some s' ↔ scanChar s c = .more s' := by
  unfold scanStep
  cases scanChar s c <;> simp

theorem feedLoop_of_run (h : Transition.run scanStep s text = some s') (length offset : ℕ)
    (rest : List Char) :
    feedLoop length s offset (text ++ rest) = feedLoop length s' (offset + text.length) rest := by
  induction text generalizing s offset with
  | nil =>
    obtain rfl := Option.some.inj h
    rfl
  | cons c text ih =>
    obtain ⟨s₁, hstep, hrun⟩ := Transition.run_cons_eq_some.mp h
    rw [List.cons_append, feedLoop_cons, scanStep_eq_some.mp hstep]
    dsimp only
    rw [ih hrun, List.length_cons, Nat.add_assoc, Nat.add_comm 1]

structure Inside (s : ToolInputScanner) : Prop where
  started : s.started = true
  inString : s.inString = false
  escape : s.escape = false

/-- No bracket and no quotation mark. -/
def IsPlain (c : Char) : Prop := c ≠ '\x7b' ∧ c ≠ '[' ∧ c ≠ '"' ∧ c ≠ '\x7d' ∧ c ≠ ']'

instance (c : Char) : Decidable (IsPlain c) := inferInstanceAs (Decidable (_ ∧ _))

theorem scanChar_plain (h : s.Inside) (hc : IsPlain c) : scanChar s c = .more s := by
  obtain ⟨hbrace, hbracket, hquote, hclose, hclose'⟩ := hc
  unfold scanChar
  simp [h.inString, h.started, hbrace, hbracket, hquote, hclose, hclose']

theorem run_plain (h : s.Inside) (htext : ∀ c ∈ text, IsPlain c) :
    Transition.run scanStep s text = some s := by
  induction text with
  | nil => rfl
  | cons c text ih =>
    have hc := scanStep_eq_some.mpr (scanChar_plain h (htext c List.mem_cons_self))
    exact Transition.run_cons_eq_some.mpr
      ⟨s, hc, ih fun d hd => htext d (List.mem_cons_of_mem _ hd)⟩

theorem isPlain_of_isJsonSpace (hc : isJsonSpace c = true) : IsPlain c := by
  refine ⟨?_, ?_, ?_, ?_, ?_⟩
  all_goals
    rintro rfl
    revert hc
    decide

theorem isPlain_of_isNumberChar (hc : JsonPrint.isNumberChar c = true) : IsPlain c := by
  refine ⟨?_, ?_, ?_, ?_, ?_⟩
  all_goals
    rintro rfl
    revert hc
    decide

theorem isPlain_of_words (h : text ∈ words) : ∀ c ∈ text, IsPlain c := by
  have hall : (words.all fun text => text.all fun c => decide (IsPlain c)) = true := by decide
  intro c hc
  exact of_decide_eq_true (List.all_eq_true.mp (List.all_eq_true.mp hall text h) c hc)

theorem isPlain_of_number (h : NumberText text) : ∀ c ∈ text, IsPlain c :=
  fun c hc => isPlain_of_isNumberChar (JsonPrint.isNumberChar_numberText h c hc)

theorem isPlain_of_isSpace {space : List Char} (h : IsSpace space) : ∀ c ∈ space, IsPlain c :=
  fun c hc => isPlain_of_isJsonSpace (h c hc)

theorem scanChar_quote (h : s.Inside) : scanChar s '"' = .more { s with inString := true } := by
  unfold scanChar
  simp [h.inString, h.started]

theorem scanStep_inString (h : s.Inside) (hquote : c ≠ '"') (hbackslash : c ≠ '\\') :
    scanStep { s with inString := true } c = some { s with inString := true } := by
  rw [scanStep_eq_some]
  unfold scanChar
  simp [h.escape, hquote, hbackslash]

theorem scanStep_backslash (h : s.Inside) :
    scanStep { s with inString := true } '\\' = some { s with inString := true, escape := true } := by
  rw [scanStep_eq_some]
  unfold scanChar
  simp [h.escape]

theorem scanStep_escaped (h : s.Inside) (c : Char) :
    scanStep { s with inString := true, escape := true } c = some { s with inString := true } := by
  rw [scanStep_eq_some]
  unfold scanChar
  simp [← h.escape]

theorem ne_of_hexDigits {a b c d : Char} (h : hexDigits a b c d = some n) :
    ∀ x ∈ [a, b, c, d], x ≠ '"' ∧ x ≠ '\\' := by
  have hne {x : Char} {v : ℕ} (hx : hexValue x = some v) : x ≠ '"' ∧ x ≠ '\\' := by
    constructor
    · rintro rfl
      cases hx
    · rintro rfl
      cases hx
  unfold hexDigits at h
  obtain ⟨va, ha, h⟩ := Option.bind_eq_some_iff.mp h
  obtain ⟨vb, hb, h⟩ := Option.bind_eq_some_iff.mp h
  obtain ⟨vc, hc, h⟩ := Option.bind_eq_some_iff.mp h
  obtain ⟨vd, hd, -⟩ := Option.bind_eq_some_iff.mp h
  simp only [List.forall_mem_cons]
  exact ⟨hne ha, hne hb, hne hc, hne hd, by simp⟩

theorem run_inString (h : s.Inside) (htext : ∀ c ∈ text, c ≠ '"' ∧ c ≠ '\\') :
    Transition.run scanStep { s with inString := true } text = some { s with inString := true } := by
  induction text with
  | nil => rfl
  | cons c text ih =>
    obtain ⟨hquote, hbackslash⟩ := htext c List.mem_cons_self
    exact Transition.run_cons_eq_some.mpr ⟨_, scanStep_inString h hquote hbackslash,
      ih fun d hd => htext d (List.mem_cons_of_mem _ hd)⟩

theorem run_escape (h : s.Inside) (e : Char)
    (htext : Transition.run scanStep { s with inString := true } text =
      some { s with inString := true }) :
    Transition.run scanStep { s with inString := true } ('\\' :: e :: text) =
      some { s with inString := true } :=
  Transition.run_cons_eq_some.mpr ⟨_, scanStep_backslash h,
    Transition.run_cons_eq_some.mpr ⟨_, scanStep_escaped h e, htext⟩⟩

theorem run_content (h : s.Inside) (htext : IsContent text) :
    Transition.run scanStep { s with inString := true } text = some { s with inString := true } := by
  induction htext with
  | nil => rfl
  | plain _ hquote hbackslash _ ih =>
    exact Transition.run_cons_eq_some.mpr ⟨_, scanStep_inString h hquote hbackslash, ih⟩
  | @escape e _ _ _ _ ih => exact run_escape h e ih
  | @unicode a b c d n text hdigits _ ih =>
    refine run_escape h 'u' ?_
    exact Transition.run_append_eq_some.mpr
      ⟨_, run_inString h (ne_of_hexDigits hdigits), ih⟩

theorem run_string (h : s.Inside) (htext : IsContent text) :
    Transition.run scanStep s ('"' :: (text ++ ['"'])) = some s := by
  have hclose : scanStep { s with inString := true } '"' = some s := by
    obtain ⟨depth, inString, escape, started, unstructured, scannedLen, completeLen⟩ := s
    obtain ⟨rfl, rfl, rfl⟩ := h
    rfl
  exact Transition.run_cons_eq_some.mpr ⟨_, scanStep_eq_some.mpr (scanChar_quote h),
    Transition.run_append_eq_some.mpr ⟨_, run_content h htext, Transition.run_singleton.mpr hclose⟩⟩

def IsOpening (c : Char) : Prop := c = '\x7b' ∨ c = '['

def IsClosing (c : Char) : Prop := c = '\x7d' ∨ c = ']'

theorem scanChar_opening (hs : s.inString = false) (hc : IsOpening c) :
    scanChar s c = .more { s with started := true, depth := (s.depth + 1) % 2 ^ 32 } := by
  unfold scanChar
  unfold IsOpening at hc
  simp [hs, hc]

theorem scanChar_closing (h : s.Inside) (hc : IsClosing c) :
    scanChar s c = if s.depth - 1 = 0 then .complete { s with depth := s.depth - 1 }
      else .more { s with depth := s.depth - 1 } := by
  unfold scanChar
  rcases hc with rfl | rfl
  · simp [h.inString, h.started]
  · simp [h.inString, h.started]

/-- The scanner behind an opening bracket. -/
def deeper (s : ToolInputScanner) : ToolInputScanner :=
  { s with started := true, depth := s.depth + 1 }

theorem run_opening (hs : s.inString = false) (hdepth : s.depth + 1 < 2 ^ 32) (hc : IsOpening c) :
    scanStep s c = some s.deeper := by
  rw [scanStep_eq_some, scanChar_opening hs hc, Nat.mod_eq_of_lt hdepth]
  rfl

theorem Inside.deeper (h : s.Inside) : s.deeper.Inside := ⟨rfl, h.inString, h.escape⟩

theorem run_closing (h : s.Inside) (hpos : 0 < s.depth) (hc : IsClosing c) :
    scanStep s.deeper c = some s := by
  have hsame : ({ s.deeper with depth := s.deeper.depth - 1 } : ToolInputScanner) = s := by
    unfold ToolInputScanner.deeper
    rw [Nat.add_sub_cancel, ← h.started]
  rw [scanStep_eq_some, scanChar_closing h.deeper hc, if_neg, hsame]
  change ¬ s.depth + 1 - 1 = 0
  omega

theorem run_brackets (h : s.Inside) (hpos : 0 < s.depth) (hdepth : s.depth + 1 < 2 ^ 32)
    {opening closing : Char} (hopening : IsOpening opening) (hclosing : IsClosing closing)
    (hbody : Transition.run scanStep s.deeper body = some s.deeper) :
    Transition.run scanStep s (opening :: (body ++ [closing])) = some s :=
  Transition.run_cons_eq_some.mpr ⟨_, run_opening h.inString hdepth hopening,
    Transition.run_append_eq_some.mpr
      ⟨_, hbody, Transition.run_singleton.mpr (run_closing h hpos hclosing)⟩⟩

theorem run_append_same {text text' : List Char} (h : Transition.run scanStep s text = some s)
    (h' : Transition.run scanStep s text' = some s) :
    Transition.run scanStep s (text ++ text') = some s :=
  Transition.run_append_eq_some.mpr ⟨s, h, h'⟩

theorem run_intercalate (hs : s.Inside) {texts : List (List Char)}
    (h : ∀ text ∈ texts, Transition.run scanStep s text = some s) :
    Transition.run scanStep s ([','].intercalate texts) = some s := by
  induction texts with
  | nil => rfl
  | cons text texts ih =>
    have htext := h text List.mem_cons_self
    have hrest := ih fun t ht => h t (List.mem_cons_of_mem _ ht)
    cases texts with
    | nil => simpa [List.intercalate] using htext
    | cons next texts =>
      have hcomma : Transition.run scanStep s [','] = some s :=
        run_plain hs (List.forall_mem_singleton.mpr (by decide))
      rw [List.intercalate_cons_cons]
      exact run_append_same (run_append_same htext hcomma) hrest

theorem run_member (hs : s.Inside) {m : MemberText} (hm : m.IsNamed)
    (hvalue : Transition.run scanStep s m.value = some s) :
    Transition.run scanStep s m.text = some s := by
  obtain ⟨hbefore, hname, hafter⟩ := hm
  have hcolon : Transition.run scanStep s [':'] = some s :=
    run_plain hs (List.forall_mem_singleton.mpr (by decide))
  have htext : m.text = m.before ++ ('"' :: (m.name ++ ['"'])) ++ m.after ++ [':'] ++ m.value := by
    simp [MemberText.text]
  rw [htext]
  exact run_append_same (run_append_same (run_append_same (run_append_same
    (run_plain hs (isPlain_of_isSpace hbefore)) (run_string hs hname))
    (run_plain hs (isPlain_of_isSpace hafter))) hcolon) hvalue

theorem run_value (htext : IsValue n text) (hs : s.Inside) (hpos : 0 < s.depth)
    (hdepth : s.depth + n < 2 ^ 32) : Transition.run scanStep s text = some s := by
  induction htext generalizing s with
  | word h => exact run_plain hs (isPlain_of_words h)
  | number h => exact run_plain hs (isPlain_of_number h)
  | string h => exact run_string hs h
  | emptyArray h =>
    exact run_brackets hs hpos (by omega) (.inr rfl) (.inr rfl)
      (run_plain hs.deeper (isPlain_of_isSpace h))
  | @array n items _ _ ih =>
    refine run_brackets hs hpos (by omega) (.inr rfl) (.inr rfl) (run_intercalate hs.deeper ?_)
    intro item hitem
    refine ih item hitem hs.deeper (Nat.succ_pos _) ?_
    change s.depth + 1 + n < _
    omega
  | emptyObject h =>
    exact run_brackets hs hpos (by omega) (.inl rfl) (.inl rfl)
      (run_plain hs.deeper (isPlain_of_isSpace h))
  | @object n members _ hnamed _ ih =>
    refine run_brackets hs hpos (by omega) (.inl rfl) (.inl rfl) (run_intercalate hs.deeper ?_)
    intro text hmem
    obtain ⟨m, hm, rfl⟩ := List.mem_map.mp hmem
    refine run_member hs.deeper (hnamed m hm) (ih m hm hs.deeper (Nat.succ_pos _) ?_)
    change s.depth + 1 + n < _
    omega
  | padded hbefore hafter _ ih =>
    exact run_append_same (run_append_same (run_plain hs (isPlain_of_isSpace hbefore))
      (ih hs hpos hdepth)) (run_plain hs (isPlain_of_isSpace hafter))

theorem isAsciiWhitespace_of_isJsonSpace (hc : isJsonSpace c = true) :
    isAsciiWhitespace c = true := by
  simp only [isJsonSpace, Bool.or_eq_true, beq_iff_eq] at hc
  rcases hc with ((rfl | rfl) | rfl) | rfl
  all_goals decide

theorem run_leading {space : List Char} (h : IsSpace space) :
    Transition.run scanStep {} space = some {} := by
  induction space with
  | nil => rfl
  | cons c space ih =>
    have hspace := h c List.mem_cons_self
    have hscan : scanChar {} c = .more {} := by
      obtain ⟨hbrace, hbracket, -, -, -⟩ := isPlain_of_isJsonSpace hspace
      unfold scanChar
      simp [hbrace, hbracket, isAsciiWhitespace_of_isJsonSpace hspace]
    exact Transition.run_cons_eq_some.mpr
      ⟨{}, scanStep_eq_some.mpr hscan, ih fun d hd => h d (List.mem_cons_of_mem _ hd)⟩

/-- The scanner reads the text up to the closing bracket of its object or array. -/
def ReachesClosing (text : List Char) : Prop :=
  ∃ body closing space, text = body ++ closing :: space ∧ IsClosing closing ∧ IsSpace space ∧
    Transition.run scanStep {} body = some (deeper {})

theorem reachesClosing_brackets {opening closing : Char} (hopening : IsOpening opening)
    (hclosing : IsClosing closing)
    (hbody : Transition.run scanStep (deeper {}) body = some (deeper {})) :
    ReachesClosing (opening :: (body ++ [closing])) := by
  refine ⟨opening :: body, closing, [], rfl, hclosing, nofun, ?_⟩
  exact Transition.run_cons_eq_some.mpr ⟨_, run_opening rfl (by decide) hopening, hbody⟩

theorem ReachesClosing.padded {before text after : List Char} (hbefore : IsSpace before)
    (hafter : IsSpace after) (h : ReachesClosing text) :
    ReachesClosing (before ++ text ++ after) := by
  obtain ⟨body, closing, space, rfl, hclosing, hspace, hrun⟩ := h
  refine ⟨before ++ body, closing, space ++ after, by simp, hclosing, ?_, ?_⟩
  · exact List.forall_mem_append.mpr ⟨hspace, hafter⟩
  · exact Transition.run_append_eq_some.mpr ⟨{}, run_leading hbefore, hrun⟩

theorem reachesClosing (htext : IsValue n text) (hn : n < 2 ^ 32) (hcontainer : IsContainer text) :
    ReachesClosing text := by
  have hinside : (deeper {}).Inside := ⟨rfl, rfl, rfl⟩
  have hpos : 0 < (deeper {}).depth := Nat.one_pos
  have hdepth {n : ℕ} (hn : n + 1 < 2 ^ 32) : (deeper {}).depth + n < 2 ^ 32 := by
    change 1 + n < _
    omega
  induction htext with
  | word h => exact absurd hcontainer (not_isContainer_of_words h)
  | number h => exact absurd hcontainer (not_isContainer_of_number h)
  | string h => exact absurd hcontainer (not_isContainer_of_firstChar rfl (by decide))
  | emptyArray h =>
    exact reachesClosing_brackets (.inr rfl) (.inr rfl) (run_plain hinside (isPlain_of_isSpace h))
  | array _ hitems =>
    refine reachesClosing_brackets (.inr rfl) (.inr rfl) (run_intercalate hinside ?_)
    exact fun item hitem => run_value (hitems item hitem) hinside hpos (hdepth hn)
  | emptyObject h =>
    exact reachesClosing_brackets (.inl rfl) (.inl rfl) (run_plain hinside (isPlain_of_isSpace h))
  | object _ hnamed hvalues =>
    refine reachesClosing_brackets (.inl rfl) (.inl rfl) (run_intercalate hinside ?_)
    intro text hmem
    obtain ⟨m, hm, rfl⟩ := List.mem_map.mp hmem
    exact run_member hinside (hnamed m hm) (run_value (hvalues m hm) hinside hpos (hdepth hn))
  | padded hbefore hafter _ ih =>
    exact (ih hn (hcontainer.of_padded hbefore hafter)).padded hbefore hafter

theorem forwarded_of_run {closing : Char} (hrun : Transition.run scanStep {} body = some s)
    (hs : s.Inside) (hdepth : s.depth - 1 = 0) (hclosing : IsClosing closing) (rest : List Char) :
    forwarded (body ++ closing :: rest) = body ++ [closing] := by
  have hscan := scanChar_closing hs hclosing
  rw [if_pos hdepth] at hscan
  have hfeed : (feed {} (body ++ closing :: rest)).1 = (body ++ [closing]).length := by
    rw [feed_of_looking ⟨rfl, rfl⟩, feedLoop_of_run hrun, feedLoop_cons, hscan, Nat.zero_add,
      @List.length_append _ body [closing], List.length_singleton]
  have hsplit : body ++ closing :: rest = body ++ [closing] ++ rest := List.append_cons _ _ _
  rw [forwarded, hfeed, hsplit, List.take_left]

theorem ReachesClosing.upToClosing (h : ReachesClosing text) (rest : List Char) :
    UpToClosing text (forwarded (text ++ rest)) := by
  obtain ⟨body, closing, space, rfl, hclosing, hspace, hrun⟩ := h
  rw [List.append_assoc, List.cons_append, forwarded_of_run hrun ⟨rfl, rfl, rfl⟩ rfl hclosing]
  refine ⟨?_, space, (List.append_cons _ _ _), hspace⟩
  rw [List.getLast?_concat]
  exact (hclosing.imp (congrArg some) (congrArg some)).symm

end ToolInputScanner

theorem prefix_of_cleaned {isJson : List Char → Bool} {input head : List Char}
    (h : classifyToolInputJson isJson input = .cleaned head) :
    head <+: input ∧ isJson head = true := by
  unfold classifyToolInputJson at h
  split_ifs at h
  split at h
  · cases h
  · dsimp only at h
    split_ifs at h with hbad
    obtain rfl := ToolInputJson.cleaned.inj h
    rw [Bool.or_eq_true, not_or, Bool.not_eq_true', Bool.not_eq_false] at hbad
    exact ⟨List.take_prefix _ _, hbad.1⟩

open JsonGrammar ToolInputScanner in
/-- Of fragments that begin with an object or an array, exactly that is let through; what is let
through does not depend on the cuts; and a cleaned input is a JSON text that the input begins with. -/
theorem feedAll_container (isJson : List Char → Bool) :
    (∀ n < 2 ^ 32, ∀ json rest fragments, IsValue n json → IsContainer json →
      fragments.flatten = json ++ rest → UpToClosing json (feedAll {} fragments).flatten) ∧
    (∀ fragments fragments' : List (List Char), fragments.flatten = fragments'.flatten →
      (feedAll {} fragments).flatten = (feedAll {} fragments').flatten) ∧
    ∀ input head, classifyToolInputJson isJson input = .cleaned head →
      head <+: input ∧ isJson head = true := by
  refine ⟨?_, ?_, fun input head h => prefix_of_cleaned h⟩
  · intro n hn json rest fragments hjson hcontainer hfragments
    rw [flatten_feedAll, hfragments]
    exact (reachesClosing hjson hn hcontainer).upToClosing rest
  · intro fragments fragments' hsame
    rw [flatten_feedAll, flatten_feedAll, hsame]

namespace ToolInputScanner

open JsonText JsonGrammar

/-- An object whose only name has an escaped quotation mark. -/
def quotedName : List Char := ['\x7b', '"', 'a', '\\', '"', '"', ':', '[', '1', ']', '\x7d']

theorem isValue_quotedName : IsValue 2 quotedName := by
  have hone : NumberText ['1'] :=
    @NumberText.mk [] ['1'] [] [] (.inl rfl) ⟨List.cons_ne_nil _ _, List.forall_mem_singleton.mpr rfl⟩
      (by decide) (.inl rfl) (.inl rfl)
  have harray : IsValue 1 ['[', '1', ']'] :=
    @IsValue.array 0 [['1']] (List.cons_ne_nil _ _)
      fun item hitem => List.mem_singleton.mp hitem ▸ .number hone
  have hname : IsContent ['a', '\\', '"'] :=
    .plain (by decide) (by decide) (by decide) (.escape rfl .nil)
  refine @IsValue.object 1 [⟨[], ['a', '\\', '"'], [], ['[', '1', ']']⟩] (List.cons_ne_nil _ _) ?_ ?_
  · intro m hm
    rw [List.mem_singleton.mp hm]
    exact ⟨nofun, hname, nofun⟩
  · intro m hm
    rw [List.mem_singleton.mp hm]
    exact harray

/-- The cuts are between the backslash and the quotation mark and in front of a bracket too many. -/
theorem feedAll_quotedName : UpToClosing quotedName
    (feedAll {} [quotedName.take 4, quotedName.drop 4, ['\x7d']]).flatten :=
  (feedAll_container fun text => decide (text = quotedName)).1 2 (by decide) quotedName ['\x7d'] _
    isValue_quotedName (.inr rfl) rfl

/-- Arrays in each other, and nothing in the innermost one. -/
def nested (n : ℕ) : List Char := List.replicate n '[' ++ List.replicate n ']'

theorem isValue_nested (n : ℕ) : IsValue (n + 1) (nested (n + 1)) := by
  induction n with
  | zero => exact @IsValue.emptyArray 0 [] nofun
  | succ n ih =>
    have hnested : nested (n + 2) =
        '[' :: ([','].intercalate [nested (n + 1)] ++ [']']) := by
      have hlast : List.replicate (n + 2) ']' = List.replicate (n + 1) ']' ++ [']'] :=
        List.replicate_succ'
      unfold nested
      rw [List.replicate_succ, hlast]
      simp [List.intercalate]
    rw [hnested]
    refine .array (List.cons_ne_nil _ _) ?_
    intro item hitem
    rw [List.mem_singleton.mp hitem]
    exact ih

theorem run_opening_brackets (n : ℕ) : Transition.run scanStep {} (List.replicate (n + 1) '[') =
    some { started := true, depth := (n + 1) % 2 ^ 32 } := by
  induction n with
  | zero => rfl
  | succ n ih =>
    have hstep : scanStep { started := true, depth := (n + 1) % 2 ^ 32 } '[' =
        some { started := true, depth := ((n + 1) % 2 ^ 32 + 1) % 2 ^ 32 } :=
      scanStep_eq_some.mpr (scanChar_opening rfl (.inr rfl))
    rw [Nat.mod_add_mod] at hstep
    rw [List.replicate_succ']
    exact Transition.run_append_eq_some.mpr ⟨_, ih, Transition.run_singleton.mpr hstep⟩

theorem nested_of_wrapped {n : ℕ} (hn : 0 < n) (hwrapped : (n + 1) % 2 ^ 32 = 0) :
    ¬ UpToClosing (nested (n + 1)) (feedAll {} [nested (n + 1)]).flatten := by
  have hrun := run_opening_brackets n
  rw [hwrapped] at hrun
  have hforwarded := forwarded_of_run hrun ⟨rfl, rfl, rfl⟩ rfl (.inr rfl) (List.replicate n ']')
  have hnested : nested (n + 1) =
      List.replicate (n + 1) '[' ++ ']' :: List.replicate n ']' := by
    unfold nested
    exact congrArg _ List.replicate_succ
  rw [flatten_feedAll, List.flatten_singleton, hnested, hforwarded, List.append_cons]
  rintro ⟨-, space, htext, hspace⟩
  have hmem : ']' ∈ space := by
    rw [← List.append_cancel_left htext]
    exact List.mem_replicate.mpr ⟨hn.ne', rfl⟩
  exact absurd (hspace _ hmem) (by decide)

theorem nested_at_limit : IsValue (2 ^ 32) (nested (2 ^ 32)) ∧ IsContainer (nested (2 ^ 32)) ∧
    ¬ UpToClosing (nested (2 ^ 32)) (feedAll {} [nested (2 ^ 32)]).flatten :=
  ⟨isValue_nested (2 ^ 32 - 1), .inl rfl, @nested_of_wrapped (2 ^ 32 - 1) (by decide) rfl⟩

end ToolInputScanner

end KiroProxy.Stream
