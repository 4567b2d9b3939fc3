import KiroProxy.TranscriptSanitizer.Sanitizer

/-!
# What the sanitizer keeps

The output of the sanitizer, with the characters that it still holds back, is a part of the
text that it has read, in the order of the text. It is all of the text as long as no
transcript is suppressed.
-/

namespace KiroProxy.TranscriptSanitizer.ToolTranscriptSanitizer

/-- The characters that wait for a decision. -/
def held (s : ToolTranscriptSanitizer) : List Char :=
  match s.state with
  | .candidate c => c.buffer
  | _ => s.lineProbe

theorem length_held (s : ToolTranscriptSanitizer) : s.held.length = s.heldLength := by
  unfold held heldLength
  cases s.state <;> rfl

def Sound (s : ToolTranscriptSanitizer) : Prop :=
  s.state ≠ .scan ∨ s.atLineStart = false → s.lineProbe = []

theorem sound_new (sha256 : String → Digest) (names : List String) : (new sha256 names).Sound :=
  fun _ => rfl

structure Kept (s : ToolTranscriptSanitizer) (text : List Char) (s' : ToolTranscriptSanitizer)
    (output : List Char) : Prop where
  sound : s'.Sound
  sublist : (output ++ s'.held).Sublist (s.held ++ text)
  suppressed : s'.suppressedBlocks = 0 → s.suppressedBlocks = 0
  all : s'.suppressedBlocks = 0 → s.state ≠ .dropUntilBoundary →
    output ++ s'.held = s.held ++ text ∧ s'.state ≠ .dropUntilBoundary

namespace Kept

variable {s s₁ s₂ : ToolTranscriptSanitizer} {text text' output output' : List Char}

theorem nil (h : s.Sound) : Kept s [] s [] where
  sound := h
  sublist := by rw [List.nil_append, List.append_nil]
  suppressed := id
  all _ hstate := ⟨by rw [List.nil_append, List.append_nil], hstate⟩

end Kept

theorem trimmed_append_tail {c : Candidate} {tail : List Char} (h : c.tail? = some tail) :
    c.buffer.take (c.buffer.length - tail.length) ++ tail = c.buffer ∧
      tail.length < c.buffer.length := by
  unfold Candidate.tail? at h
  split_ifs at h with hmem
  cases h
  have hsuffix : (c.buffer.dropWhile (· != '\n')).drop 1 <:+ c.buffer :=
    (List.drop_suffix _ _).trans (List.dropWhile_suffix _)
  have hne : c.buffer.dropWhile (· != '\n') ≠ [] := by
    intro hnil
    have hall := List.dropWhile_eq_nil_iff.mp hnil '\n' (List.contains_iff_mem.mp hmem)
    exact absurd hall (by decide)
  refine ⟨?_, ?_⟩
  · exact List.suffix_iff_eq_append.mp hsuffix
  · have hlength := (List.dropWhile_suffix (l := c.buffer) (· != '\n')).length_le
    have hpos := List.length_pos_iff.mpr hne
    rw [List.length_drop]
    omega

variable {s : ToolTranscriptSanitizer}

theorem finishProbeLine_kept (hscan : s.state = .scan) :
    s.finishProbeLine.1.Sound ∧ s.finishProbeLine.2 ++ s.finishProbeLine.1.held = s.lineProbe ∧
      s.finishProbeLine.1.suppressedBlocks = s.suppressedBlocks ∧
      s.finishProbeLine.1.state ≠ .dropUntilBoundary := by
  unfold finishProbeLine
  dsimp only
  generalize (if s.fence.isNone = true then roleLineKind (trimEndBlanks
    (dropTrailing '\r' (dropTrailing '\n' s.lineProbe))) else none) = kind
  cases kind with
  | some kind => exact ⟨fun _ => rfl, rfl, rfl, nofun⟩
  | none =>
    refine ⟨fun _ => rfl, ?_, rfl, ?_⟩
    · simp only [held, hscan, List.append_nil]
    · dsimp only
      rw [hscan]
      exact nofun

theorem processScanChar_kept (hscan : s.state = .scan) (hsound : s.Sound) (ch : Char) :
    (s.processScanChar ch).1.Sound ∧
      (s.processScanChar ch).2 ++ (s.processScanChar ch).1.held = s.held ++ [ch] ∧
      (s.processScanChar ch).1.suppressedBlocks = s.suppressedBlocks ∧
      (s.processScanChar ch).1.state ≠ .dropUntilBoundary := by
  have hheld : s.held = s.lineProbe := by rw [held, hscan]
  have hne : s.state ≠ .dropUntilBoundary := by rw [hscan]; exact nofun
  unfold processScanChar
  rw [hheld]
  split_ifs with hstart hnewline
  · rw [Bool.not_eq_true'] at hstart
    have hprobe := hsound (.inr hstart)
    refine ⟨fun _ => hprobe, ?_, rfl, hne⟩
    simp only [held, hscan, hprobe, List.nil_append, List.append_nil]
  · exact @finishProbeLine_kept { s with lineProbe := s.lineProbe ++ [ch] } hscan
  · dsimp only
    split
    · refine ⟨fun _ => rfl, ?_, rfl, hne⟩
      simp only [held, hscan, List.append_nil]
    · split_ifs
      · refine ⟨fun _ => rfl, ?_, rfl, hne⟩
        simp only [held, hscan, List.append_nil]
      · refine ⟨fun h => ?_, ?_, rfl, hne⟩
        · rw [Bool.not_eq_true', Bool.not_eq_false] at hstart
          rcases h with h | h
          · exact absurd hscan h
          · exact absurd (hstart.symm.trans h) (by decide)
        · simp only [held, hscan, List.nil_append]

theorem releaseCandidate_kept {c : Candidate} (hscan : s.state = .scan) (hprobe : s.lineProbe = []) :
    (s.releaseCandidate c).1.Sound ∧ (s.releaseCandidate c).1.held = [] ∧
      (s.releaseCandidate c).2.1 ++ (s.releaseCandidate c).2.2 = c.buffer ∧
      (s.releaseCandidate c).1.suppressedBlocks = s.suppressedBlocks ∧
      (s.releaseCandidate c).1.state = .scan ∧
      ((s.releaseCandidate c).2.2 = [] ∨
        (s.releaseCandidate c).2.2.length < c.buffer.length) := by
  unfold releaseCandidate
  split
  · refine ⟨fun _ => hprobe, ?_, List.append_nil _, rfl, hscan, .inl rfl⟩
    simp only [held, hscan, hprobe]
  · next tail htail =>
    obtain ⟨happend, hlt⟩ := trimmed_append_tail htail
    refine ⟨fun _ => rfl, ?_, happend, rfl, hscan, .inr hlt⟩
    simp only [held, hscan]

/-- What one character does, with the characters that are to be read again. -/
theorem processChar_kept (hsound : s.Sound) (ch : Char) :
    (s.processChar ch).1.Sound ∧
      ((s.processChar ch).2.1 ++ ((s.processChar ch).1.held ++ (s.processChar ch).2.2)).Sublist
        (s.held ++ [ch]) ∧
      ((s.processChar ch).1.suppressedBlocks = 0 → s.suppressedBlocks = 0) ∧
      ((s.processChar ch).1.suppressedBlocks = 0 → s.state ≠ .dropUntilBoundary →
        (s.processChar ch).2.1 ++ ((s.processChar ch).1.held ++ (s.processChar ch).2.2) =
          s.held ++ [ch] ∧ (s.processChar ch).1.state ≠ .dropUntilBoundary) ∧
      ((s.processChar ch).2.2 = [] ∨
        (s.processChar ch).1.held.length + (s.processChar ch).2.2.length ≤ s.held.length) := by
  unfold processChar
  split
  · next hscan =>
    obtain ⟨hsound', hall, hcount, hstate⟩ := processScanChar_kept hscan hsound ch
    dsimp only
    rw [List.append_nil, hall, hcount]
    exact ⟨hsound', .refl _, id, fun _ _ => ⟨rfl, hstate⟩, .inl rfl⟩
  · next hdrop =>
    refine ⟨hsound, ?_, id, fun _ hstate => absurd hdrop hstate, .inl rfl⟩
    simp only [held, hdrop, List.append_nil, List.nil_append]
    exact List.sublist_append_left _ _
  · next c hcandidate =>
    have hprobe : s.lineProbe = [] := hsound (.inl (by rw [hcandidate]; exact nofun))
    have hheld : s.held = c.buffer := by rw [held, hcandidate]
    rw [hheld]
    dsimp only
    split
    · refine ⟨fun _ => hprobe, ?_, id, fun _ _ => ⟨?_, nofun⟩, .inl rfl⟩
      · simp only [held, List.append_nil, List.nil_append]
        exact .refl _
      · simp only [held, List.append_nil, List.nil_append]
    · have hcount : min (s.suppressedBlocks + 1) (2 ^ 32 - 1) ≠ 0 := by omega
      refine ⟨fun _ => hprobe, ?_, fun h => absurd h hcount, fun h => absurd h hcount, .inl rfl⟩
      simp only [held, recordSuppressedCandidate, hprobe, List.append_nil]
      exact List.nil_sublist _
    · obtain ⟨hsound', hheld', hall, hcount, hstate, hagain⟩ :=
        @releaseCandidate_kept { s with state := .scan } { c with buffer := c.buffer ++ [ch] } rfl
          hprobe
      rw [hheld', List.nil_append, hall, hcount, hstate, List.length_nil, Nat.zero_add]
      refine ⟨hsound', .refl _, id, fun _ _ => ⟨rfl, nofun⟩, hagain.imp_right fun hlt => ?_⟩
      rw [List.length_append, List.length_singleton] at hlt
      exact Nat.le_of_lt_succ hlt

/-- The characters are read one by one, and those to be read again before the next one. -/
inductive Reads : ToolTranscriptSanitizer → List Char → ToolTranscriptSanitizer → List Char → Prop
  | nil (s : ToolTranscriptSanitizer) : Reads s [] s []
  | cons {s s' : ToolTranscriptSanitizer} {ch : Char} {text output : List Char}
      (rest : Reads (s.processChar ch).1 ((s.processChar ch).2.2 ++ text) s' output) :
      Reads s (ch :: text) s' ((s.processChar ch).2.1 ++ output)

theorem reads_processText {fuel : ℕ} {text : List Char} (hsound : s.Sound)
    (hfuel : (s.held.length + text.length) * (s.held.length + text.length + 1) + text.length ≤
      fuel) : Reads s text (processText fuel s text).1 (processText fuel s text).2 := by
  -- A step either reads a character, with no more characters in all, or gives up a line.
  induction fuel generalizing s text with
  | zero =>
    have hnil : text = [] := List.length_eq_zero_iff.mp (by omega)
    subst hnil
    exact .nil s
  | succ fuel ih =>
    cases text with
    | nil => exact .nil s
    | cons ch text =>
      obtain ⟨hsound', hsub, -, -, hagain⟩ := processChar_kept hsound ch
      have hlength := hsub.length_le
      simp only [List.length_append, List.length_cons, List.length_nil] at hlength hfuel
      refine .cons (ih hsound' ?_)
      generalize s.processChar ch = next at hlength hagain ⊢
      obtain ⟨s₁, output, again⟩ := next
      dsimp only at hlength hagain ⊢
      rw [List.length_append]
      rcases hagain with rfl | hlt
      · rw [List.length_nil, Nat.zero_add]
        rw [List.length_nil] at hlength
        have hle : s₁.held.length + text.length ≤ s.held.length + (text.length + 1) := by omega
        have hmul := Nat.mul_le_mul hle (Nat.add_le_add_right hle 1)
        omega
      · have hle : s₁.held.length + (again.length + text.length) + 1 ≤
            s.held.length + (text.length + 1) := by omega
        have hmul := Nat.mul_le_mul hle (Nat.add_le_add_right hle 1)
        generalize hn : s₁.held.length + (again.length + text.length) = n at hle hmul ⊢
        have hexpand : (n + 1) * (n + 1 + 1) = n * (n + 1) + 2 * (n + 1) := by ring
        omega

theorem reads_push (hsound : s.Sound) (text : List Char) :
    Reads s text (s.push text).1 (s.push text).2 := by
  refine reads_processText hsound ?_
  rw [steps, ← length_held]
  generalize hn : s.held.length + text.length = n
  have hle : text.length ≤ n := by omega
  have hexpand : (n + 1) * (n + 1) = n * (n + 1) + (n + 1) := by ring
  omega

theorem Reads.kept {s s' : ToolTranscriptSanitizer} {text output : List Char}
    (h : Reads s text s' output) (hsound : s.Sound) : Kept s text s' output := by
  induction h with
  | nil s => exact .nil hsound
  | @cons s s' ch text output rest ih =>
    obtain ⟨hsound', hsub, hzero, hall, -⟩ := processChar_kept hsound ch
    have hrest := ih hsound'
    generalize s.processChar ch = next at hsub hzero hall hrest ⊢
    obtain ⟨s₁, output₁, again⟩ := next
    dsimp only at hsub hzero hall hrest ⊢
    have hsplit : s.held ++ ch :: text = s.held ++ [ch] ++ text := by simp
    have hmove : ∀ l : List Char, output₁ ++ (s₁.held ++ (again ++ l)) =
        output₁ ++ (s₁.held ++ again) ++ l := by simp
    refine ⟨hrest.sound, ?_, fun h => hzero (hrest.suppressed h), fun h hstate => ?_⟩
    · rw [hsplit, List.append_assoc]
      refine (hrest.sublist.append_left output₁).trans ?_
      rw [hmove]
      exact hsub.append_right text
    · obtain ⟨hfirst, hstate₁⟩ := hall (hrest.suppressed h) hstate
      obtain ⟨hlast, hstate₂⟩ := hrest.all h hstate₁
      refine ⟨?_, hstate₂⟩
      rw [List.append_assoc, hlast, hmove, hfirst, hsplit]

theorem push_kept (hsound : s.Sound) (text : List Char) :
    Kept s text (s.push text).1 (s.push text).2 :=
  (reads_push hsound text).kept hsound

theorem finishLoop_kept {fuel : ℕ} (hsound : s.Sound) (hfuel : s.held.length ≤ fuel) :
    (finishLoop fuel s).2.Sublist s.held ∧
      ((finishLoop fuel s).1.suppressedBlocks = 0 → s.suppressedBlocks = 0) ∧
      ((finishLoop fuel s).1.suppressedBlocks = 0 → s.state ≠ .dropUntilBoundary →
        (finishLoop fuel s).2 = s.held) := by
  induction fuel generalizing s with
  | zero =>
    have hnil : s.held = [] := List.length_eq_zero_iff.mp (Nat.le_zero.mp hfuel)
    exact ⟨List.nil_sublist _, id, fun _ _ => hnil.symm⟩
  | succ fuel ih =>
    rw [finishLoop]
    split
    · next hscan =>
      have hheld : s.held = s.lineProbe := by rw [held, hscan]
      rw [hheld]
      exact ⟨.refl _, id, fun _ _ => rfl⟩
    · next hdrop => exact ⟨List.nil_sublist _, id, fun _ hstate => absurd hdrop hstate⟩
    · next c hcandidate =>
      have hprobe : s.lineProbe = [] := hsound (.inl (by simp [hcandidate]))
      have hheld : s.held = c.buffer := by rw [held, hcandidate]
      rw [hheld] at hfuel ⊢
      split_ifs
      · have hcount : (s.recordSuppressedCandidate c).suppressedBlocks ≠ 0 := by
          simp only [recordSuppressedCandidate]
          omega
        exact ⟨List.nil_sublist _, fun h => absurd h hcount, fun h => absurd h hcount⟩
      · obtain ⟨hsound₁, hheld₁, hall₁, hcount₁, hstate₁, hagain⟩ :=
          @releaseCandidate_kept { s with state := .scan } c rfl hprobe
        dsimp only
        generalize ({ s with state := .scan } : ToolTranscriptSanitizer).releaseCandidate c = first
          at hsound₁ hheld₁ hall₁ hcount₁ hstate₁ hagain
        obtain ⟨s₁, output, again⟩ := first
        dsimp only at hsound₁ hheld₁ hall₁ hcount₁ hstate₁ hagain ⊢
        have hpush := push_kept hsound₁ again
        generalize s₁.push again = second at hpush
        obtain ⟨s₂, output'⟩ := second
        dsimp only at hpush ⊢
        have hsub := hpush.sublist
        rw [hheld₁, List.nil_append] at hsub
        have hle : s₂.held.length ≤ fuel := by
          have hlength := hsub.length_le
          rw [List.length_append] at hlength
          rcases hagain with rfl | hlt
          · rw [List.length_nil] at hlength
            omega
          · omega
        obtain ⟨hsub', hzero', hall'⟩ := ih hpush.sound hle
        refine ⟨?_, fun h => hcount₁ ▸ hpush.suppressed (hzero' h), fun h _ => ?_⟩
        · rw [List.append_assoc, ← hall₁]
          exact ((hsub'.append_left output').trans hsub).append_left output
        · obtain ⟨hall₂, hstate₂⟩ := hpush.all (hzero' h) (by simp [hstate₁])
          rw [hall' h hstate₂, List.append_assoc, hall₂, hheld₁, List.nil_append, hall₁]

theorem finishSegment_kept (hsound : s.Sound) :
    Kept s [] s.finishSegment.1 s.finishSegment.2 ∧ s.finishSegment.1.held = [] := by
  have hfuel : s.held.length ≤ s.heldLength + 1 := by
    rw [length_held]
    exact Nat.le_succ _
  obtain ⟨hsub, hzero, hall⟩ := finishLoop_kept hsound hfuel
  unfold finishSegment
  refine ⟨⟨fun _ => rfl, ?_, hzero, fun h hstate => ⟨?_, nofun⟩⟩, rfl⟩
  · simp only [held, List.append_nil]
    exact hsub
  · simp only [held, List.append_nil]
    exact hall h hstate

end KiroProxy.TranscriptSanitizer.ToolTranscriptSanitizer
