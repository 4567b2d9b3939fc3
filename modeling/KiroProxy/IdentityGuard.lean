import KiroProxy.KeyedList
import KiroProxy.Segmentation
import KiroProxy.Sse
import KiroProxy.Text

/-!
# The identity guard

Sentences that reveal the serving channel are removed from the assistant's text, from a whole
text at once or from a stream sentence by sentence. Which sentences leak is a parameter, in
place of the regular expressions.
-/

namespace KiroProxy.IdentityGuard

def maxPendingBytes : ℕ := 600

/-- The characters that always end a sentence. -/
def isTerminator (c : Char) : Bool :=
  c == '\n' || c == '。' || c == '！' || c == '？' || c == '；'

/-- Whether a period after this text, given last character first, belongs to a list marker. -/
def isListMarker (before : List Char) : Bool :=
  let head := trimStart (before.takeWhile (· != '\n')).reverse
  !head.isEmpty && decide (utf8Length head ≤ 3) && head.all Char.isDigit

/-- Whether a mark ends a sentence that reads `before` backwards and goes on with `after`. -/
def endsSentence (before : List Char) (mark : Char) (after : List Char) : Bool :=
  isTerminator mark ||
    ((mark == '.' || mark == '!' || mark == '?') &&
      after.head?.any isWhitespace && !(mark == '.' && isListMarker before))

def sentenceEndFrom (before : List Char) : List Char → Option ℕ
  | [] => none
  | c :: rest =>
    if endsSentence before c rest then some (before.length + 1)
    else sentenceEndFrom (c :: before) rest

/-- The number of characters up to the end of the first complete sentence. -/
def sentenceEnd (text : List Char) : Option ℕ := sentenceEndFrom [] text

def endsWithNewline (text : List Char) : Bool := text.getLast? == some '\n'

/-- A dropped sentence leaves the newline that ended it. -/
def keepNewline (sentence out : List Char) : List Char :=
  if endsWithNewline sentence && !out.isEmpty && !endsWithNewline out then out ++ ['\n'] else out

section Scrub

variable (sentenceLeaks : List Char → Bool)

/-- The loop of `scrub_text`: the text kept, and whether anything was dropped. -/
def scrubLoop : ℕ → List Char → List Char → Bool → List Char × Bool
  | 0, _, out, changed => (out, changed)
  | fuel + 1, rest, out, changed =>
    if rest = [] then (out, changed)
    else
      let stop := (sentenceEnd rest).getD rest.length
      let sentence := rest.take stop
      if sentenceLeaks sentence then
        scrubLoop fuel (rest.drop stop) (keepNewline sentence out) true
      else scrubLoop fuel (rest.drop stop) (out ++ sentence) changed

def scrubText (text : List Char) : Option (List Char) :=
  let (out, changed) := scrubLoop sentenceLeaks text.length text [] false
  if changed then some (trimStart out) else none

/-- Just past the last whitespace of a long run without a boundary. -/
def lastWhitespaceEnd (buffer : List Char) : ℕ :=
  let trailing := buffer.reverse.takeWhile fun c => !isWhitespace c
  if trailing.length = buffer.length then buffer.length else buffer.length - trailing.length

/-- How much of the buffer is released next. -/
def releaseEnd (buffer : List Char) (atEnd : Bool) : Option ℕ :=
  match sentenceEnd buffer with
  | some stop => some stop
  | none =>
    if atEnd && !buffer.isEmpty then some buffer.length
    else if maxPendingBytes < utf8Length buffer then some (lastWhitespaceEnd buffer)
    else none

/-- The loop of `drain`: what stays in the buffer, what is released, and whether anything was
removed so far. -/
def drainLoop (atEnd : Bool) : ℕ → List Char → List Char → Bool → List Char × List Char × Bool
  | 0, buffer, out, removedAny => (buffer, out, removedAny)
  | fuel + 1, buffer, out, removedAny =>
    match releaseEnd buffer atEnd with
    | none => (buffer, out, removedAny)
    | some stop =>
      let sentence := buffer.take stop
      let buffer := buffer.drop stop
      if sentenceLeaks sentence then drainLoop atEnd fuel buffer (keepNewline sentence out) true
      else if buffer = [] then (buffer, out ++ sentence, removedAny)
      else drainLoop atEnd fuel buffer (out ++ sentence) removedAny

end Scrub

structure Guard where
  textBlocks : List ℕ
  pending : List (ℕ × List Char)
  emitted : List ℕ
  fallback : List Char
  removedAny : Bool
  deriving DecidableEq, Repr

namespace Guard

def new (fallback : List Char) : Guard where
  textBlocks := []
  pending := []
  emitted := []
  fallback := fallback
  removedAny := false

variable (sentenceLeaks : List Char → Bool)

def drain (g : Guard) (index : ℕ) (atEnd : Bool) : Guard × List Char :=
  match KeyedList.get index g.pending with
  | none => (g, [])
  | some buffer =>
    let (buffer, out, removedAny) :=
      drainLoop sentenceLeaks atEnd (buffer.length + 1) buffer [] g.removedAny
    ({ g with pending := KeyedList.insert index buffer g.pending, removedAny },
      if g.emitted.contains index then out else trimStart out)

def textEvents (index : ℕ) (text : List Char) : List SseEvent :=
  if text = [] then [] else [.contentBlockDelta index (.textDelta text)]

def markEmitted (g : Guard) (index : ℕ) (text : List Char) : Guard :=
  if text = [] then g else { g with emitted := index :: g.emitted }

/-- Only the mark itself changes. -/
theorem markEmitted_eq (g : Guard) (index : ℕ) (text : List Char) :
    ∃ emitted, g.markEmitted index text = { g with emitted } := by
  rw [markEmitted]
  split_ifs
  · exact ⟨g.emitted, rfl⟩
  · exact ⟨index :: g.emitted, rfl⟩

def applyOne (g : Guard) : SseEvent → Guard × List SseEvent
  | .contentBlockStart index block =>
    (if block.type = .text then { g with textBlocks := index :: g.textBlocks } else g,
      [.contentBlockStart index block])
  | .contentBlockDelta index (.textDelta text) =>
    if g.textBlocks.contains index then
      let buffer := (KeyedList.get index g.pending).getD [] ++ text
      let g := { g with pending := KeyedList.insert index buffer g.pending }
      let (g, released) := g.drain sentenceLeaks index false
      (g.markEmitted index released, textEvents index released)
    else (g, [.contentBlockDelta index (.textDelta text)])
  | .contentBlockStop index =>
    if g.textBlocks.contains index then
      let (g, released) := g.drain sentenceLeaks index true
      let g := { g with pending := KeyedList.remove index g.pending }
      let released :=
        if released.isEmpty && !g.emitted.contains index && g.removedAny then g.fallback
        else released
      (g.markEmitted index released, textEvents index released ++ [.contentBlockStop index])
    else (g, [.contentBlockStop index])
  | event => (g, [event])

def apply (g : Guard) : List SseEvent → Guard × List SseEvent
  | [] => (g, [])
  | event :: events =>
    let (g, output) := g.applyOne sentenceLeaks event
    let (g, output') := apply g events
    (g, output ++ output')

end Guard

theorem endsSentence_append {before after : List Char} {mark : Char} (tail : List Char)
    (h : endsSentence before mark after = true) :
    endsSentence before mark (after ++ tail) = true := by
  cases after with
  | nil =>
    rw [endsSentence] at h ⊢
    simp at h
    simp [h]
  | cons next after => exact h

theorem endsSentence_append_of_ne_nil {before after : List Char} {mark : Char}
    (tail : List Char) (hne : after ≠ []) :
    endsSentence before mark (after ++ tail) = endsSentence before mark after := by
  cases after with
  | nil => exact absurd rfl hne
  | cons next after => rfl

theorem sentenceEndFrom_bounds {before text : List Char} {n : ℕ}
    (h : sentenceEndFrom before text = some n) :
    before.length < n ∧ n ≤ before.length + text.length := by
  induction text generalizing before with
  | nil => cases h
  | cons c text ih =>
    rw [sentenceEndFrom] at h
    rw [List.length_cons]
    split_ifs at h
    · cases h
      omega
    · have hbounds := ih h
      rw [List.length_cons] at hbounds
      omega

theorem sentenceEndFrom_append {before text : List Char} {n : ℕ} (tail : List Char)
    (h : sentenceEndFrom before text = some n) :
    sentenceEndFrom before (text ++ tail) = some n := by
  induction text generalizing before with
  | nil => cases h
  | cons c text ih =>
    rw [sentenceEndFrom] at h
    rw [List.cons_append, sentenceEndFrom]
    split_ifs at h with hend
    · rw [if_pos (endsSentence_append tail hend)]
      exact h
    · have hne : text ≠ [] := by
        intro hnil
        rw [hnil] at h
        cases h
      rw [endsSentence_append_of_ne_nil tail hne, if_neg hend]
      exact ih h

theorem sentenceEndFrom_settled {before text tail : List Char} {n : ℕ}
    (h : sentenceEndFrom before (text ++ tail) = some n) (hlt : n < before.length + text.length) :
    sentenceEndFrom before text = some n := by
  induction text generalizing before with
  | nil =>
    have hbounds := sentenceEndFrom_bounds h
    rw [List.length_nil] at hlt
    omega
  | cons c text ih =>
    rw [List.cons_append, sentenceEndFrom] at h
    rw [sentenceEndFrom]
    rw [List.length_cons] at hlt
    split_ifs at h with hend
    · have hn : before.length + 1 = n := Option.some.inj h
      have hne : text ≠ [] := by
        intro hnil
        rw [hnil, List.length_nil] at hlt
        omega
      rw [endsSentence_append_of_ne_nil tail hne] at hend
      rw [if_pos hend, hn]
    · rw [if_neg (fun hend' => hend (endsSentence_append tail hend'))]
      apply ih h
      rw [List.length_cons]
      omega

/-- The sentences of a text, for any way in which the text arrives. -/
def sentences : Segmentation.Rule Char where
  cut := sentenceEnd
  pos h := Nat.lt_of_le_of_lt (Nat.zero_le _) (sentenceEndFrom_bounds h).1
  le_length h := by simpa using (sentenceEndFrom_bounds h).2
  stable tail h := sentenceEndFrom_append tail h
  settled h hlt := sentenceEndFrom_settled h (by simpa using hlt)

section Loops

open Segmentation

variable (sentenceLeaks : List Char → Bool)

/-- The text kept of a list of sentences, after the text kept before. -/
def keepSentences (out : List Char) (found : List (List Char)) : List Char :=
  found.foldl (fun out sentence =>
    if sentenceLeaks sentence then keepNewline sentence out else out ++ sentence) out

variable {sentenceLeaks}

theorem segments_nil : sentences.segments [] = [] := rfl

theorem segments_of_ne_nil {text : List Char} (hne : text ≠ []) :
    sentences.segments text = text.take ((sentenceEnd text).getD text.length) ::
      sentences.segments (text.drop ((sentenceEnd text).getD text.length)) := by
  cases h : sentenceEnd text with
  | none =>
    rw [Rule.segments, sentences.completed_of_none h, if_neg hne, Option.getD_none,
      List.take_length, List.drop_length]
    rfl
  | some n =>
    rw [Rule.segments, sentences.completed_of_some h]
    rfl

theorem length_drop_sentence {text : List Char} (hne : text ≠ []) :
    (text.drop ((sentenceEnd text).getD text.length)).length < text.length := by
  have hlength := List.length_pos_of_ne_nil hne
  cases h : sentenceEnd text with
  | none =>
    rw [Option.getD_none, List.drop_length]
    exact hlength
  | some n => exact sentences.length_drop_lt h

theorem keepSentences_cons (out sentence : List Char) (found : List (List Char)) :
    keepSentences sentenceLeaks out (sentence :: found) =
      keepSentences sentenceLeaks
        (if sentenceLeaks sentence then keepNewline sentence out else out ++ sentence) found := rfl

variable {fuel : ℕ} {buffer kept : List Char}

theorem scrubLoop_eq {rest : List Char} (hfuel : rest.length ≤ fuel) (out : List Char)
    (changed : Bool) :
    scrubLoop sentenceLeaks fuel rest out changed =
      (keepSentences sentenceLeaks out (sentences.segments rest),
        changed || (sentences.segments rest).any sentenceLeaks) := by
  induction fuel generalizing rest out changed with
  | zero =>
    have hnil : rest = [] := List.length_eq_zero_iff.mp (Nat.le_zero.mp hfuel)
    subst hnil
    simp [scrubLoop, segments_nil, keepSentences]
  | succ fuel ih =>
    rw [scrubLoop]
    by_cases hne : rest = []
    · subst hne
      simp [segments_nil, keepSentences]
    · have hlt := length_drop_sentence hne
      rw [if_neg hne, segments_of_ne_nil hne, keepSentences_cons, List.any_cons]
      dsimp only
      rw [ih (by omega), ih (by omega)]
      split_ifs with hleak
      · rw [hleak, Bool.true_or, Bool.or_true]
      · rw [Bool.not_eq_true] at hleak
        rw [hleak, Bool.false_or]

theorem scrubText_eq (text : List Char) :
    scrubText sentenceLeaks text =
      if (sentences.segments text).any sentenceLeaks then
        some (trimStart (keepSentences sentenceLeaks [] (sentences.segments text)))
      else none := by
  rw [scrubText, scrubLoop_eq le_rfl, Bool.false_or]

theorem releaseEnd_atEnd (hne : buffer ≠ []) :
    releaseEnd buffer true = some ((sentenceEnd buffer).getD buffer.length) := by
  rw [releaseEnd]
  cases sentenceEnd buffer with
  | none => simp [hne]
  | some n => rfl

theorem drainLoop_atEnd (hfuel : buffer.length < fuel) (out : List Char) (removedAny : Bool) :
    drainLoop sentenceLeaks true fuel buffer out removedAny =
      ([], keepSentences sentenceLeaks out (sentences.segments buffer),
        removedAny || (sentences.segments buffer).any sentenceLeaks) := by
  induction fuel generalizing buffer out removedAny with
  | zero => exact absurd hfuel (Nat.not_lt_zero _)
  | succ fuel ih =>
    rw [drainLoop]
    by_cases hne : buffer = []
    · subst hne
      simp [releaseEnd, sentenceEnd, sentenceEndFrom, segments_nil, keepSentences, utf8Length]
    · have hlt := length_drop_sentence hne
      rw [releaseEnd_atEnd hne, segments_of_ne_nil hne, keepSentences_cons, List.any_cons]
      dsimp only
      rw [ih (by omega), ih (by omega)]
      split_ifs with hleak hnil
      · rw [hleak, Bool.true_or, Bool.or_true]
      · rw [Bool.not_eq_true] at hleak
        rw [hleak, hnil, Bool.false_or, segments_nil]
        simp [keepSentences]
      · rw [Bool.not_eq_true] at hleak
        rw [hleak, Bool.false_or]

/-- Before the end only complete sentences are released, as long as what is left is short. -/
theorem drainLoop_growing (hfuel : buffer.length < fuel)
    (hshort : utf8Length (sentences.completed buffer).2 ≤ maxPendingBytes) (out : List Char)
    (removedAny : Bool) :
    drainLoop sentenceLeaks false fuel buffer out removedAny =
      ((sentences.completed buffer).2,
        keepSentences sentenceLeaks out (sentences.completed buffer).1,
        removedAny || (sentences.completed buffer).1.any sentenceLeaks) := by
  induction fuel generalizing buffer out removedAny with
  | zero => exact absurd hfuel (Nat.not_lt_zero _)
  | succ fuel ih =>
    rw [drainLoop, releaseEnd]
    cases h : sentenceEnd buffer with
    | none =>
      rw [sentences.completed_of_none h] at hshort ⊢
      simp [not_lt.mpr hshort, keepSentences]
    | some n =>
      have hlt := sentences.length_drop_lt h
      rw [sentences.completed_of_some h] at hshort ⊢
      dsimp only
      rw [ih (by omega) hshort, ih (by omega) hshort, keepSentences_cons, List.any_cons]
      split_ifs with hleak hnil
      · rw [hleak, Bool.true_or, Bool.or_true]
      · rw [Bool.not_eq_true] at hleak
        rw [hleak, hnil, Bool.false_or]
        simp [Rule.completed, Rule.completedWithin, keepSentences]
      · rw [Bool.not_eq_true] at hleak
        rw [hleak, Bool.false_or]

/-- A newline is put back between the text kept before and what follows: something was kept,
not up to a newline, and a dropped sentence that ends with one comes before the next kept one. -/
def restoresNewline (sentenceLeaks : List Char → Bool) (kept : List Char)
    (found : List (List Char)) : Bool :=
  !kept.isEmpty && !endsWithNewline kept &&
    (found.takeWhile sentenceLeaks).any endsWithNewline

theorem endsWithNewline_append (hne : kept ≠ []) (before : List Char) :
    endsWithNewline (before ++ kept) = endsWithNewline kept := by
  rw [endsWithNewline, endsWithNewline, List.getLast?_append_of_ne_nil before hne]

theorem keepNewline_append (hne : kept ≠ []) (before sentence : List Char) :
    keepNewline sentence (before ++ kept) = before ++ keepNewline sentence kept := by
  rw [keepNewline, keepNewline, endsWithNewline_append hne]
  split_ifs with h h' h'
  · rw [List.append_assoc]
  · simp_all
  · simp_all
  · rfl

theorem keepNewline_ne_nil (hne : kept ≠ []) (sentence : List Char) :
    keepNewline sentence kept ≠ [] := by
  rw [keepNewline]
  split_ifs
  · simp
  · exact hne

theorem keepSentences_append (hne : kept ≠ []) (before : List Char) (found : List (List Char)) :
    keepSentences sentenceLeaks (before ++ kept) found =
      before ++ keepSentences sentenceLeaks kept found := by
  induction found generalizing kept with
  | nil => rfl
  | cons sentence found ih =>
    rw [keepSentences_cons, keepSentences_cons]
    split_ifs
    · rw [keepNewline_append hne, ih (keepNewline_ne_nil hne sentence)]
    · rw [List.append_assoc, ih (by simp [hne])]

theorem keepSentences_eq (kept : List Char) {found : List (List Char)}
    (hfound : ∀ sentence ∈ found, sentence ≠ []) :
    keepSentences sentenceLeaks kept found =
      kept ++ (if restoresNewline sentenceLeaks kept found then ['\n'] else []) ++
        keepSentences sentenceLeaks [] found := by
  induction found generalizing kept with
  | nil => simp [restoresNewline, keepSentences]
  | cons sentence found ih =>
    have hrest : ∀ sentence ∈ found, sentence ≠ [] :=
      fun s hs => hfound s (List.mem_cons_of_mem _ hs)
    rw [keepSentences_cons, keepSentences_cons]
    by_cases hleak : sentenceLeaks sentence = true
    · rw [if_pos hleak, if_pos hleak]
      have hnil : keepNewline sentence [] = [] := by simp [keepNewline]
      rw [hnil, ih _ hrest, restoresNewline, restoresNewline, List.takeWhile_cons_of_pos hleak,
        List.any_cons]
      by_cases hnewline : endsWithNewline sentence = true
      · by_cases hkept : (!kept.isEmpty && !endsWithNewline kept) = true
        · have hended : endsWithNewline (kept ++ ['\n']) = true := by simp [endsWithNewline]
          simp [keepNewline, hnewline, hkept, hended]
        · rw [Bool.not_eq_true] at hkept
          simp [keepNewline, hnewline, hkept]
      · rw [Bool.not_eq_true] at hnewline
        simp [keepNewline, hnewline]
    · have hne := hfound sentence List.mem_cons_self
      rw [if_neg hleak, if_neg hleak, keepSentences_append hne, List.nil_append, restoresNewline,
        List.takeWhile_cons_of_neg hleak]
      simp

end Loops

section Stream

open Segmentation

variable {sentenceLeaks : List Char → Bool}

/-- How far the stream of a block has come: the text that waits, the text released, with the
whitespace that is trimmed at its start, and whether a sentence was removed. -/
structure Progress where
  buffer : List Char
  shown : List Char
  removedAny : Bool

def Progress.feed (sentenceLeaks : List Char → Bool) (p : Progress) (chunk : List Char) :
    Progress :=
  let found := sentences.completed (p.buffer ++ chunk)
  { buffer := found.2
    shown := p.shown ++ keepSentences sentenceLeaks [] found.1
    removedAny := p.removedAny || found.1.any sentenceLeaks }

structure Follows (g : Guard) (index : ℕ) (fallback : List Char) (p : Progress) : Prop where
  block : g.textBlocks.contains index = true
  pending : (KeyedList.get index g.pending).getD [] = p.buffer
  emitted : g.emitted.contains index = !isBlank p.shown
  removedAny : g.removedAny = p.removedAny
  fallback : g.fallback = fallback

theorem visibleText_textEvents (index : ℕ) (text : List Char) :
    visibleText index (Guard.textEvents index text) = text := by
  rw [Guard.textEvents]
  split_ifs with h
  · rw [h, visibleText_nil]
  · simp [SseEvent.textFor]

theorem trimStart_append_released (shown out : List Char) :
    trimStart shown ++ (if !isBlank shown then out else trimStart out) =
      trimStart (shown ++ out) := by
  cases h : isBlank shown with
  | true => rw [trimStart_append_of_isBlank h, isBlank_iff_trimStart.mp h]; rfl
  | false => rw [trimStart_append_of_not_isBlank h]; rfl

variable {g : Guard} {index : ℕ} {fallback : List Char} {p : Progress}

theorem contains_markEmitted {shown out released : List Char}
    (hemitted : g.emitted.contains index = !isBlank shown)
    (hreleased : released = if !isBlank shown then out else trimStart out) :
    (g.markEmitted index released).emitted.contains index = !isBlank (shown ++ out) := by
  rw [Guard.markEmitted, isBlank_append]
  cases h : isBlank shown with
  | false =>
    rw [h] at hemitted
    split_ifs
    · exact hemitted
    · simp
  | true =>
    rw [h] at hemitted hreleased
    have hblank : isBlank out = released.isEmpty := by
      rw [Bool.eq_iff_iff, isBlank_iff_trimStart, hreleased, List.isEmpty_iff]
      rfl
    rw [hblank]
    split_ifs with hnil
    · rw [hemitted, hnil]
      rfl
    · simp [hnil]

theorem Follows.markEmitted {fallback out released : List Char} (h : Follows g index fallback p)
    (hreleased : released = if !isBlank p.shown then out else trimStart out) :
    Follows (g.markEmitted index released) index fallback { p with shown := p.shown ++ out } := by
  have hemitted := contains_markEmitted h.emitted hreleased
  obtain ⟨emitted, heq⟩ := g.markEmitted_eq index released
  rw [heq] at hemitted ⊢
  exact ⟨h.block, h.pending, hemitted, h.removedAny, h.fallback⟩

theorem Follows.feed (h : Follows g index fallback p) {chunk : List Char}
    (hshort : utf8Length (p.feed sentenceLeaks chunk).buffer ≤ maxPendingBytes) :
    Follows (g.applyOne sentenceLeaks (.contentBlockDelta index (.textDelta chunk))).1 index
        fallback (p.feed sentenceLeaks chunk) ∧
      trimStart p.shown ++ visibleText index
          (g.applyOne sentenceLeaks (.contentBlockDelta index (.textDelta chunk))).2 =
        trimStart (p.feed sentenceLeaks chunk).shown := by
  have hget : KeyedList.get index (KeyedList.insert index (p.buffer ++ chunk) g.pending) =
      some (p.buffer ++ chunk) := KeyedList.get_insert_self _ _ _
  have hloop : drainLoop sentenceLeaks false ((p.buffer ++ chunk).length + 1)
      (p.buffer ++ chunk) [] g.removedAny = _ :=
    drainLoop_growing (Nat.lt_succ_self _) hshort [] g.removedAny
  rw [Guard.applyOne, if_pos h.block, h.pending]
  dsimp only [Guard.drain]
  rw [hget]
  dsimp only
  rw [hloop, h.emitted]
  dsimp only
  constructor
  · apply Follows.markEmitted
      (p := { p with
        buffer := (p.feed sentenceLeaks chunk).buffer
        removedAny := (p.feed sentenceLeaks chunk).removedAny })
    · constructor
      · exact h.block
      · rw [KeyedList.get_insert_self]
        rfl
      · exact h.emitted
      · rw [h.removedAny]
        rfl
      · exact h.fallback
    · rfl
  · rw [visibleText_textEvents]
    exact trimStart_append_released _ _

/-- The text of a block that ends after these groups of sentences were released. -/
def finalText (sentenceLeaks : List Char → Bool) (fallback : List Char) (p : Progress)
    (groups : List (List (List Char))) : List Char :=
  let shown := p.shown ++ groups.flatMap (keepSentences sentenceLeaks [])
  if isBlank shown && (p.removedAny || groups.flatten.any sentenceLeaks) then fallback
  else trimStart shown

theorem Follows.drain_atEnd (h : Follows g index fallback p) (sentenceLeaks : List Char → Bool) :
    ∃ pending, g.drain sentenceLeaks index true =
      ({ g with
          pending
          removedAny := p.removedAny || (sentences.segments p.buffer).any sentenceLeaks },
        if !isBlank p.shown then keepSentences sentenceLeaks [] (sentences.segments p.buffer)
        else trimStart (keepSentences sentenceLeaks [] (sentences.segments p.buffer))) := by
  have hpending := h.pending
  rw [Guard.drain]
  cases hget : KeyedList.get index g.pending with
  | none =>
    rw [hget, Option.getD_none] at hpending
    rw [← hpending, segments_nil, List.any_nil, Bool.or_false, ← h.removedAny]
    refine ⟨g.pending, ?_⟩
    simp [keepSentences, trimStart]
  | some buffer =>
    rw [hget, Option.getD_some] at hpending
    subst hpending
    dsimp only
    rw [drainLoop_atEnd (Nat.lt_succ_self _), h.removedAny, h.emitted]
    exact ⟨_, rfl⟩

theorem Follows.stop (h : Follows g index fallback p) (sentenceLeaks : List Char → Bool) :
    trimStart p.shown ++ visibleText index
        (g.applyOne sentenceLeaks (.contentBlockStop index)).2 =
      finalText sentenceLeaks fallback p [sentences.segments p.buffer] := by
  obtain ⟨pending, hdrain⟩ := h.drain_atEnd sentenceLeaks
  rw [Guard.applyOne, if_pos h.block, hdrain, finalText, List.flatMap_singleton,
    List.flatten_singleton]
  dsimp only
  rw [visibleText_append, visibleText_textEvents, h.emitted, h.fallback]
  generalize keepSentences sentenceLeaks [] (sentences.segments p.buffer) = out
  generalize (p.removedAny || (sentences.segments p.buffer).any sentenceLeaks) = removed
  have hstop : visibleText index [.contentBlockStop index] = [] := rfl
  have htrim := trimStart_append_released p.shown out
  rw [hstop, List.append_nil, isBlank_append]
  cases hshown : isBlank p.shown with
  | false =>
    rw [hshown] at htrim
    simpa using htrim
  | true =>
    have hblank : isBlank out = (trimStart out).isEmpty := by
      rw [Bool.eq_iff_iff, isBlank_iff_trimStart, List.isEmpty_iff]
    rw [hshown] at htrim
    rw [isBlank_iff_trimStart.mp hshown] at htrim ⊢
    rw [hblank, ← htrim]
    simp

/-- The sentences that each text delta completes, and those left for the end of the block. -/
def releases (buffer : List Char) : List (List Char) → List (List (List Char))
  | [] => [sentences.segments buffer]
  | chunk :: chunks =>
    (sentences.completed (buffer ++ chunk)).1 ::
      releases (sentences.completed (buffer ++ chunk)).2 chunks

theorem flatten_releases (buffer : List Char) (chunks : List (List Char)) :
    (releases buffer chunks).flatten = sentences.segments (buffer ++ chunks.flatten) := by
  induction chunks generalizing buffer with
  | nil => simp [releases]
  | cons chunk chunks ih =>
    rw [releases, List.flatten_cons, ih, List.flatten_cons, ← List.append_assoc,
      sentences.segments_append (buffer ++ chunk)]

theorem finalText_feed (fallback : List Char) (p : Progress) (chunk : List Char)
    (chunks : List (List Char)) :
    finalText sentenceLeaks fallback (p.feed sentenceLeaks chunk)
        (releases (p.feed sentenceLeaks chunk).buffer chunks) =
      finalText sentenceLeaks fallback p (releases p.buffer (chunk :: chunks)) := by
  simp [finalText, releases, Progress.feed, Bool.or_assoc]

/-- Where nothing is released for its length alone, the text of the block is what is kept of
each release. -/
theorem Follows.apply_textDeltas (h : Follows g index fallback p) {chunks : List (List Char)}
    (hshort : ∀ earlier, earlier <+: chunks →
      utf8Length (sentences.completed (p.buffer ++ earlier.flatten)).2 ≤ maxPendingBytes) :
    trimStart p.shown ++ visibleText index
        (g.apply sentenceLeaks (textDeltas index chunks ++ [.contentBlockStop index])).2 =
      finalText sentenceLeaks fallback p (releases p.buffer chunks) := by
  induction chunks generalizing g p with
  | nil =>
    have hstop := h.stop sentenceLeaks
    simpa [Guard.apply, textDeltas, releases] using hstop
  | cons chunk chunks ih =>
    have hfirst : utf8Length (p.feed sentenceLeaks chunk).buffer ≤ maxPendingBytes := by
      have hchunk := hshort [chunk] (by simp)
      rw [List.flatten_singleton] at hchunk
      exact hchunk
    obtain ⟨hnext, hshown⟩ := h.feed hfirst
    have hrun := ih hnext (by
      intro earlier hearlier
      have hlonger := hshort (chunk :: earlier) (List.cons_prefix_cons.mpr ⟨rfl, hearlier⟩)
      rw [List.flatten_cons, ← List.append_assoc, sentences.completed_append] at hlonger
      exact hlonger)
    rw [← finalText_feed, ← hrun, ← hshown]
    simp [Guard.apply, textDeltas]

end Stream

section Whole

open Segmentation

variable {sentenceLeaks : List Char → Bool}

/-- The line that the kept sentences leave open: the last kept sentence does not end with a
newline, and neither does a sentence dropped after it. -/
def leavesLineOpen (sentenceLeaks : List Char → Bool) (before : List (List Char)) : Bool :=
  let dropped := before.reverse.takeWhile sentenceLeaks
  let last := (before.reverse.dropWhile sentenceLeaks).head?
  last.any (fun sentence => !endsWithNewline sentence) && !dropped.any endsWithNewline

/-- A release that begins with dropped sentences, one of which ends the line that the releases
before it left open. -/
def losesNewline (sentenceLeaks : List Char → Bool) (before found : List (List Char)) : Bool :=
  before.any (fun sentence => !sentenceLeaks sentence && !isBlank sentence) &&
    leavesLineOpen sentenceLeaks before && (found.takeWhile sentenceLeaks).any endsWithNewline

def keepsNewlines (sentenceLeaks : List Char → Bool) (before : List (List Char)) :
    List (List (List Char)) → Bool
  | [] => true
  | found :: groups =>
    !losesNewline sentenceLeaks before found &&
      keepsNewlines sentenceLeaks (before ++ found) groups

theorem keepSentences_concat (out sentence : List Char) (found : List (List Char)) :
    keepSentences sentenceLeaks out (found ++ [sentence]) =
      if sentenceLeaks sentence then
        keepNewline sentence (keepSentences sentenceLeaks out found)
      else keepSentences sentenceLeaks out found ++ sentence := by
  rw [keepSentences, List.foldl_append]
  rfl

theorem isBlank_keepNewline (sentence out : List Char) :
    isBlank (keepNewline sentence out) = isBlank out := by
  rw [keepNewline]
  split_ifs
  · rw [isBlank_append]
    simp [isBlank, isWhitespace]
  · rfl

variable (before : List (List Char)) (fallback : List Char)

theorem isBlank_keepSentences :
    isBlank (keepSentences sentenceLeaks [] before) =
      !before.any (fun sentence => !sentenceLeaks sentence && !isBlank sentence) := by
  induction before using List.reverseRecOn with
  | nil => rfl
  | append_singleton before sentence ih =>
    rw [keepSentences_concat, List.any_append]
    split_ifs with hleak
    · rw [isBlank_keepNewline, ih]
      simp [hleak]
    · rw [isBlank_append, ih]
      simp [hleak]

theorem leavesLineOpen_concat_leak {sentence : List Char} (hleak : sentenceLeaks sentence = true) :
    leavesLineOpen sentenceLeaks (before ++ [sentence]) =
      (leavesLineOpen sentenceLeaks before && !endsWithNewline sentence) := by
  rw [leavesLineOpen, leavesLineOpen, List.reverse_append]
  rw [List.reverse_singleton, List.singleton_append]
  rw [List.takeWhile_cons_of_pos hleak, List.dropWhile_cons_of_pos hleak, List.any_cons,
    Bool.not_or, Bool.and_assoc, Bool.and_comm (!endsWithNewline sentence)]

theorem leavesLineOpen_concat_kept {sentence : List Char} (hleak : sentenceLeaks sentence = false) :
    leavesLineOpen sentenceLeaks (before ++ [sentence]) = !endsWithNewline sentence := by
  rw [leavesLineOpen, List.reverse_append]
  simp [hleak]

theorem leavesLineOpen_eq {before : List (List Char)}
    (hbefore : ∀ sentence ∈ before, sentence ≠ []) :
    leavesLineOpen sentenceLeaks before =
      (!(keepSentences sentenceLeaks [] before).isEmpty &&
        !endsWithNewline (keepSentences sentenceLeaks [] before)) := by
  induction before using List.reverseRecOn with
  | nil => rfl
  | append_singleton before sentence ih =>
    have hbefore' : ∀ sentence ∈ before, sentence ≠ [] :=
      fun s hs => hbefore s (List.mem_append_left _ hs)
    have hne : sentence ≠ [] := hbefore sentence (by simp)
    rw [keepSentences_concat]
    cases hleak : sentenceLeaks sentence with
    | true =>
      rw [leavesLineOpen_concat_leak before hleak, ih hbefore', if_pos rfl, keepNewline]
      generalize keepSentences sentenceLeaks [] before = kept
      cases hnewline : endsWithNewline sentence with
      | false => simp
      | true =>
        rw [Bool.not_true, Bool.and_false, Bool.true_and]
        split_ifs with hopen
        · simp [endsWithNewline]
        · simpa using hopen
    | false =>
      rw [leavesLineOpen_concat_kept before hleak, if_neg (by simp), endsWithNewline_append hne]
      simp [hne]

theorem losesNewline_eq {before : List (List Char)}
    (hbefore : ∀ sentence ∈ before, sentence ≠ []) (found : List (List Char)) :
    losesNewline sentenceLeaks before found =
      (!isBlank (keepSentences sentenceLeaks [] before) &&
        restoresNewline sentenceLeaks (keepSentences sentenceLeaks [] before) found) := by
  rw [losesNewline, restoresNewline, isBlank_keepSentences, leavesLineOpen_eq hbefore,
    Bool.not_not, Bool.and_assoc]

/-- What the stream has shown against what is kept of the same sentences at once. -/
structure Behind (shown kept : List Char) : Prop where
  blank : isBlank shown = isBlank kept
  length : (trimStart shown).length ≤ (trimStart kept).length

theorem Behind.append {shown kept : List Char} (h : Behind shown kept) (newline : List Char)
    (hnewline : isBlank newline = true) (out : List Char) :
    Behind (shown ++ out) (kept ++ newline ++ out) ∧
      (trimStart (shown ++ out) = trimStart (kept ++ newline ++ out) ↔
        trimStart shown = trimStart kept ∧ (isBlank kept = true ∨ newline = [])) := by
  have hblank := h.blank
  have hlength := h.length
  cases hkept : isBlank kept with
  | true =>
    rw [hkept] at hblank
    have hboth : isBlank (kept ++ newline) = true := by rw [isBlank_append, hkept, hnewline]; rfl
    rw [trimStart_append_of_isBlank hblank, trimStart_append_of_isBlank hboth,
      isBlank_iff_trimStart.mp hblank, isBlank_iff_trimStart.mp hkept]
    refine ⟨⟨?_, ?_⟩, by simp⟩
    · rw [isBlank_append, isBlank_append, hblank, hboth]
    · rw [trimStart_append_of_isBlank hblank, trimStart_append_of_isBlank hboth]
  | false =>
    rw [hkept] at hblank
    rw [List.append_assoc, trimStart_append_of_not_isBlank hblank,
      trimStart_append_of_not_isBlank hkept]
    refine ⟨⟨?_, ?_⟩, ?_⟩
    · rw [isBlank_append, isBlank_append, hblank, hkept]
      rfl
    · rw [trimStart_append_of_not_isBlank hblank, trimStart_append_of_not_isBlank hkept]
      simp only [List.length_append]
      omega
    · rw [← List.append_assoc, List.append_left_inj]
      constructor
      · intro heq
        have hnil : newline = [] := by
          apply List.length_eq_zero_iff.mp
          rw [heq, List.length_append] at hlength
          omega
        rw [hnil, List.append_nil] at heq
        exact ⟨heq, Or.inr hnil⟩
      · rintro ⟨heq, hnil⟩
        rw [hnil.resolve_left (by simp), List.append_nil, heq]

/-- The stream shows what is kept at once exactly if no release loses a newline. -/
theorem shown_eq_iff {before : List (List Char)} {shown : List Char}
    (h : Behind shown (keepSentences sentenceLeaks [] before)) {groups : List (List (List Char))}
    (hne : ∀ sentence ∈ before ++ groups.flatten, sentence ≠ []) :
    Behind (shown ++ groups.flatMap (keepSentences sentenceLeaks []))
        (keepSentences sentenceLeaks [] (before ++ groups.flatten)) ∧
      (trimStart (shown ++ groups.flatMap (keepSentences sentenceLeaks [])) =
          trimStart (keepSentences sentenceLeaks [] (before ++ groups.flatten)) ↔
        trimStart shown = trimStart (keepSentences sentenceLeaks [] before) ∧
          keepsNewlines sentenceLeaks before groups = true) := by
  induction groups generalizing before shown with
  | nil =>
    simpa [keepsNewlines] using h
  | cons found groups ih =>
    have hbefore : ∀ sentence ∈ before, sentence ≠ [] :=
      fun s hs => hne s (List.mem_append_left _ hs)
    have hfound : ∀ sentence ∈ found, sentence ≠ [] := by
      intro s hs
      exact hne s (by simp [hs])
    have hkept : keepSentences sentenceLeaks [] (before ++ found) = _ :=
      (List.foldl_append ..).trans
        (keepSentences_eq (keepSentences sentenceLeaks [] before) hfound)
    have hnewline : isBlank (if restoresNewline sentenceLeaks
        (keepSentences sentenceLeaks [] before) found then ['\n'] else []) = true := by
      split_ifs
      · rfl
      · rfl
    obtain ⟨hbehind, hstep⟩ := h.append _ hnewline (keepSentences sentenceLeaks [] found)
    rw [← hkept] at hbehind hstep
    rw [List.flatten_cons, ← List.append_assoc] at hne ⊢
    rw [List.flatMap_cons, ← List.append_assoc]
    obtain ⟨hbehind', hiff⟩ := ih hbehind hne
    refine ⟨hbehind', ?_⟩
    rw [hiff, hstep, keepsNewlines, losesNewline_eq hbefore]
    cases restoresNewline sentenceLeaks (keepSentences sentenceLeaks [] before) found with
    | true => simp [and_assoc]
    | false => simp

/-- What a whole text is replaced by: the text itself if nothing leaks, the fallback if nothing
is left of it. -/
def guardedText (sentenceLeaks : List Char → Bool) (fallback text : List Char) : List Char :=
  match scrubText sentenceLeaks text with
  | none => text
  | some [] => fallback
  | some (c :: kept) => c :: kept

theorem guardedText_of_leak {text : List Char}
    (hleak : (sentences.segments text).any sentenceLeaks = true) :
    guardedText sentenceLeaks fallback text =
      if isBlank (keepSentences sentenceLeaks [] (sentences.segments text)) then fallback
      else trimStart (keepSentences sentenceLeaks [] (sentences.segments text)) := by
  rw [guardedText, scrubText_eq, if_pos hleak]
  cases hkept : trimStart (keepSentences sentenceLeaks [] (sentences.segments text)) with
  | nil => rw [if_pos (isBlank_iff_trimStart.mpr hkept)]
  | cons c kept =>
    rw [if_neg]
    intro hblank
    rw [isBlank_iff_trimStart.mp hblank] at hkept
    cases hkept

theorem guardedText_of_clean {text : List Char}
    (hclean : (sentences.segments text).any sentenceLeaks = false) :
    guardedText sentenceLeaks fallback text = text := by
  rw [guardedText, scrubText_eq, hclean]
  rfl

theorem keepSentences_of_clean (out : List Char) {found : List (List Char)}
    (hclean : found.any sentenceLeaks = false) :
    keepSentences sentenceLeaks out found = out ++ found.flatten := by
  induction found generalizing out with
  | nil => simp [keepSentences]
  | cons sentence found ih =>
    rw [List.any_cons, Bool.or_eq_false_iff] at hclean
    rw [keepSentences_cons, if_neg (by simp [hclean.1]), ih _ hclean.2, List.flatten_cons,
      List.append_assoc]

theorem keepsNewlines_of_clean {groups : List (List (List Char))}
    (hclean : groups.flatten.any sentenceLeaks = false) :
    keepsNewlines sentenceLeaks before groups = true := by
  induction groups generalizing before with
  | nil => rfl
  | cons found groups ih =>
    rw [List.flatten_cons, List.any_append, Bool.or_eq_false_iff] at hclean
    rw [keepsNewlines, ih _ hclean.2, Bool.and_true, losesNewline]
    cases found with
    | nil => simp
    | cons sentence found =>
      have hsentence : sentenceLeaks sentence = false := by
        rw [List.any_cons, Bool.or_eq_false_iff] at hclean
        exact hclean.1.1
      simp [hsentence]

theorem visibleText_blockStream (index : ℕ) {chunks : List (List Char)}
    (hshort : ∀ sentence ∈ sentences.segments chunks.flatten,
      utf8Length sentence ≤ maxPendingBytes) :
    visibleText index
        ((Guard.new fallback).apply sentenceLeaks (blockStream index chunks)).2 =
      finalText sentenceLeaks fallback ⟨[], [], false⟩ (releases [] chunks) := by
  have hstart : Follows { Guard.new fallback with textBlocks := [index] } index fallback
      ⟨[], [], false⟩ := by
    constructor
    · simp
    · rfl
    · rfl
    · rfl
    · rfl
  rw [blockStream, Guard.apply]
  apply hstart.apply_textDeltas
  intro earlier hearlier
  obtain ⟨later, rfl⟩ := hearlier
  rw [List.nil_append]
  by_cases hnil : (sentences.completed earlier.flatten).2 = []
  · rw [hnil]
    exact Nat.zero_le _
  · -- what waits is the beginning of a sentence of the whole text
    rw [List.flatten_append] at hshort
    obtain ⟨sentence, hmem, hstarts⟩ :=
      sentences.rest_prefix_of_segments earlier.flatten later.flatten hnil
    exact (utf8Length_le_of_isPrefix hstarts).trans (hshort sentence hmem)

/-- The stream agrees with the whole text exactly if, when something leaks, no release loses a
newline, and when nothing leaks, the text does not begin with whitespace. -/
theorem stream_eq_guardedText_iff (sentenceLeaks : List Char → Bool) (fallback : List Char)
    (index : ℕ) (chunks : List (List Char))
    (hshort : ∀ sentence ∈ sentences.segments chunks.flatten,
      utf8Length sentence ≤ maxPendingBytes) :
    visibleText index
        ((Guard.new fallback).apply sentenceLeaks (blockStream index chunks)).2 =
        guardedText sentenceLeaks fallback chunks.flatten ↔
      if (sentences.segments chunks.flatten).any sentenceLeaks then
        keepsNewlines sentenceLeaks [] (releases [] chunks) = true
      else trimStart chunks.flatten = chunks.flatten := by
  have hreleases : (releases [] chunks).flatten = sentences.segments chunks.flatten :=
    flatten_releases [] chunks
  have hne : ∀ sentence ∈ ([] : List (List Char)) ++ (releases [] chunks).flatten,
      sentence ≠ [] := by
    intro sentence hmem
    rw [List.nil_append, hreleases] at hmem
    exact Rule.ne_nil_of_mem_segments hmem
  have hstart : Behind [] (keepSentences sentenceLeaks [] []) := ⟨rfl, le_rfl⟩
  obtain ⟨hbehind, hiff⟩ := shown_eq_iff hstart hne
  rw [List.nil_append, List.nil_append, hreleases] at hbehind hiff
  rw [visibleText_blockStream fallback index hshort, finalText]
  dsimp only
  rw [List.nil_append, Bool.false_or, hreleases, hbehind.blank]
  cases hleak : (sentences.segments chunks.flatten).any sentenceLeaks with
  | true =>
    rw [guardedText_of_leak fallback hleak, Bool.and_true, if_pos rfl]
    have hkeeps := hiff.trans (and_iff_right rfl)
    split_ifs with hblank
    · have hboth := hbehind.blank.trans hblank
      rw [isBlank_iff_trimStart] at hboth hblank
      exact iff_of_true rfl (hkeeps.mp (hboth.trans hblank.symm))
    · exact hkeeps
  | false =>
    have hclean : (releases [] chunks).flatten.any sentenceLeaks = false := by
      rw [hreleases]
      exact hleak
    have hshown := hiff.mpr ⟨rfl, keepsNewlines_of_clean [] hclean⟩
    rw [keepSentences_of_clean [] hleak, sentences.flatten_segments, List.nil_append] at hshown
    rw [guardedText_of_clean fallback hleak, Bool.and_false, hshown]
    rfl

/-- Tells the sentences of the texts below apart as the patterns do. -/
def namesKiro (sentence : List Char) : Bool := sentence.contains 'K'

/-- The dropped sentence comes with the text that it follows. -/
theorem stream_eq_guardedText_one_delta :
    (sentences.segments "Hi. I'm Kiro\nBye".toList).any namesKiro = true ∧
      visibleText 0 ((Guard.new "I'm Claude.".toList).apply namesKiro
          (blockStream 0 ["Hi. I'm Kiro\nBye".toList])).2 =
        guardedText namesKiro "I'm Claude.".toList ["Hi. I'm Kiro\nBye".toList].flatten := by
  refine ⟨by decide +kernel, ?_⟩
  apply (stream_eq_guardedText_iff namesKiro "I'm Claude.".toList 0 ["Hi. I'm Kiro\nBye".toList]
    (by decide +kernel)).mpr
  decide +kernel

/-- A cut before a dropped sentence loses its newline, and whitespace at the start of a text is
trimmed though nothing is dropped. -/
theorem stream_ne_guardedText :
    (∀ sentence ∈ sentences.segments "Hi. I'm Kiro\nBye".toList,
        utf8Length sentence ≤ maxPendingBytes) ∧
      visibleText 0 ((Guard.new "I'm Claude.".toList).apply namesKiro
          (blockStream 0 ["Hi. ".toList, "I'm Kiro\nBye".toList])).2 = "Hi.Bye".toList ∧
      guardedText namesKiro "I'm Claude.".toList "Hi. I'm Kiro\nBye".toList =
        "Hi.\nBye".toList ∧
      (∀ sentence ∈ sentences.segments "  Hi".toList, utf8Length sentence ≤ maxPendingBytes) ∧
      visibleText 0 ((Guard.new "I'm Claude.".toList).apply namesKiro
          (blockStream 0 ["  Hi".toList])).2 = "Hi".toList ∧
      guardedText namesKiro "I'm Claude.".toList "  Hi".toList = "  Hi".toList := by
  decide +kernel

end Whole

end KiroProxy.IdentityGuard
