import KiroProxy.ControlBlock.Blocks
import KiroProxy.KeyedList
import KiroProxy.Sse

/-!
# The streaming cleaner of control blocks

Text deltas lose their control blocks one by one; an end that may become a control block waits
for the next delta, together with the note that a newline behind a removed block is to be removed.
The stream is compared with the whole text cleaned at once.
-/

namespace KiroProxy.ControlBlock

structure ControlBlockCleaner where
  textBlocks : List ℕ
  pending : List (ℕ × List Char)
  skipLeadingNewline : List ℕ
  deriving DecidableEq, Repr

namespace ControlBlockCleaner

def new : ControlBlockCleaner where
  textBlocks := []
  pending := []
  skipLeadingNewline := []

def textEvents (index : ℕ) (text : List Char) : List SseEvent :=
  if text = [] then [] else [.contentBlockDelta index (.textDelta text)]

section Apply

variable (literals : List (List Char))

def clean (c : ControlBlockCleaner) (index : ℕ) (text : List Char) :
    ControlBlockCleaner × List Char :=
  match stripControlBlocksWithTail literals text with
  | (none, _) => (c, text)
  | (some cleaned, ended) =>
    (if ended then { c with skipLeadingNewline := index :: c.skipLeadingNewline } else c, cleaned)

def applyOne (c : ControlBlockCleaner) : SseEvent → ControlBlockCleaner × List SseEvent
  | .contentBlockStart index block =>
    (if block.type = .text then { c with textBlocks := index :: c.textBlocks } else c,
      [.contentBlockStart index block])
  | .contentBlockDelta index (.textDelta text) =>
    if c.textBlocks.contains index then
      let combined := (KeyedList.get index c.pending).getD [] ++ text
      let c := { c with pending := KeyedList.remove index c.pending }
      if combined = [] then (c, [.contentBlockDelta index (.textDelta text)])
      else
        let skips := c.skipLeadingNewline.contains index
        let c := { c with skipLeadingNewline := c.skipLeadingNewline.filter (· != index) }
        let (c, cleaned) := c.clean literals index (if skips then stripNewline combined else combined)
        match heldStart literals cleaned with
        | some start =>
          ({ c with pending := KeyedList.insert index (cleaned.drop start) c.pending },
            textEvents index (cleaned.take start))
        | none => (c, textEvents index cleaned)
    else (c, [.contentBlockDelta index (.textDelta text)])
  | .contentBlockStop index =>
    let waiting := (KeyedList.get index c.pending).getD []
    let c := { c with pending := KeyedList.remove index c.pending }
    if waiting = [] then (c, [.contentBlockStop index])
    else
      let (c, cleaned) := c.clean literals index waiting
      (c, textEvents index cleaned ++ [.contentBlockStop index])
  | event => (c, [event])

def apply (c : ControlBlockCleaner) : List SseEvent → ControlBlockCleaner × List SseEvent
  | [] => (c, [])
  | event :: events =>
    let (c, output) := c.applyOne literals event
    let (c, output') := apply c events
    (c, output ++ output')

end Apply

theorem visibleText_textEvents (index : ℕ) (text : List Char) :
    visibleText index (textEvents index text) = text := by
  rw [textEvents]
  split_ifs with h
  · rw [h, visibleText_nil]
  · simp [SseEvent.textFor]

variable {blocks : ControlBlocks}

structure Follows (blocks : ControlBlocks) (c : ControlBlockCleaner) (index : ℕ)
    (text : List Char) : Prop where
  block : c.textBlocks.contains index = true
  pending : (KeyedList.get index c.pending).getD [] =
    blocks.rule.held (blocks.rule.excise text).1
  skips : c.skipLeadingNewline.contains index = (blocks.rule.excise text).2

variable {text : List Char} {c : ControlBlockCleaner} {index : ℕ}

theorem strip_snd_of_none {literals : List (List Char)}
    (h : (stripControlBlocksWithTail literals text).1 = none) :
    (stripControlBlocksWithTail literals text).2 = false := by
  rw [stripControlBlocksWithTail] at h ⊢
  generalize stripLoop literals text.length [] text false false = result at h ⊢
  split_ifs at h ⊢
  · rfl
  · dsimp only at h ⊢
    split_ifs at h ⊢
    rfl

theorem clean_eq (blocks : ControlBlocks) (c : ControlBlockCleaner) (index : ℕ)
    (text : List Char) :
    ∃ skips, c.clean blocks.literals index text =
        ({ c with skipLeadingNewline := skips }, (blocks.rule.excise text).1) ∧
      skips.contains index =
        ((blocks.rule.excise text).2 || c.skipLeadingNewline.contains index) := by
  rw [← blocks.stripControlBlocksWithTail_eq text, clean]
  have hnone : (stripControlBlocksWithTail blocks.literals text).1 = none → _ :=
    strip_snd_of_none
  generalize stripControlBlocksWithTail blocks.literals text = result at hnone ⊢
  obtain ⟨cleaned, ended⟩ := result
  cases cleaned with
  | none =>
    have hended : ended = false := hnone rfl
    subst hended
    exact ⟨c.skipLeadingNewline, rfl, rfl⟩
  | some cleaned =>
    cases ended with
    | false => exact ⟨c.skipLeadingNewline, rfl, rfl⟩
    | true => exact ⟨index :: c.skipLeadingNewline, rfl, by simp⟩

/-- What a text delta that is not empty does, in terms of the text that is processed. -/
theorem applyOne_textDelta {text chunk : List Char} (h : Follows blocks c index text)
    (hne : blocks.rule.held (blocks.rule.excise text).1 ++ chunk ≠ []) :
    let processed := if (blocks.rule.excise text).2 = true then
        blocks.rule.skipSeparator (blocks.rule.held (blocks.rule.excise text).1 ++ chunk)
      else blocks.rule.held (blocks.rule.excise text).1 ++ chunk
    ∃ pending skips,
      c.applyOne blocks.literals (.contentBlockDelta index (.textDelta chunk)) =
        ({ c with pending := pending, skipLeadingNewline := skips },
          textEvents index (blocks.rule.released (blocks.rule.excise processed).1)) ∧
      (KeyedList.get index pending).getD [] =
        blocks.rule.held (blocks.rule.excise processed).1 ∧
      skips.contains index = (blocks.rule.excise processed).2 := by
  intro processed
  rw [applyOne, if_pos h.block]
  dsimp only
  rw [h.pending, h.skips, if_neg hne, blocks.stripNewline_eq]
  obtain ⟨skips, hclean, hskips⟩ := clean_eq blocks
    { c with
      pending := KeyedList.remove index c.pending
      skipLeadingNewline := c.skipLeadingNewline.filter (· != index) } index processed
  have hfilter : (c.skipLeadingNewline.filter (· != index)).contains index = false := by
    simp
  rw [hfilter, Bool.or_false] at hskips
  rw [hclean]
  dsimp only
  rw [blocks.heldStart_eq]
  have hsplit := blocks.rule.released_append_held (blocks.rule.excise processed).1
  split_ifs with hheld
  · rw [hheld, List.append_nil] at hsplit
    refine ⟨KeyedList.remove index c.pending, skips, ?_, ?_, hskips⟩
    · rw [hsplit]
    · rw [KeyedList.get_remove_self, hheld]
      rfl
  · dsimp only
    rw [Excision.Rule.take_released, Excision.Rule.drop_released]
    refine ⟨_, skips, rfl, ?_, hskips⟩
    rw [KeyedList.get_insert_self]
    rfl

theorem Follows.delta {text chunk : List Char} (h : Follows blocks c index text)
    (hsettled : blocks.rule.Settled text) (hlonger : blocks.rule.Settled (text ++ chunk)) :
    Follows blocks (c.applyOne blocks.literals (.contentBlockDelta index (.textDelta chunk))).1
        index (text ++ chunk) ∧
      blocks.rule.released (blocks.rule.excise text).1 ++ visibleText index
          (c.applyOne blocks.literals (.contentBlockDelta index (.textDelta chunk))).2 =
        blocks.rule.released (blocks.rule.excise (text ++ chunk)).1 := by
  by_cases hnil : blocks.rule.held (blocks.rule.excise text).1 ++ chunk = []
  · obtain ⟨hheld, rfl⟩ := List.append_eq_nil_iff.mp hnil
    rw [applyOne, if_pos h.block]
    dsimp only
    rw [h.pending, if_pos hnil, List.append_nil]
    refine ⟨⟨h.block, ?_, h.skips⟩, ?_⟩
    · rw [KeyedList.get_remove_self, hheld]
      rfl
    · simp [SseEvent.textFor]
  · obtain ⟨hstate, hreleased⟩ := hsettled.feed hlonger
    rw [Excision.Rule.feed, if_neg hnil] at hstate hreleased
    obtain ⟨pending, skips, happly, hpending, hskips⟩ := applyOne_textDelta h hnil
    rw [happly, visibleText_textEvents]
    obtain ⟨hheld, hended⟩ := Prod.mk.inj hstate
    exact ⟨⟨h.block, hpending.trans hheld, hskips.trans hended⟩, hreleased⟩

theorem Follows.stop (h : Follows blocks c index text) (hsettled : blocks.rule.Settled text) :
    blocks.rule.released (blocks.rule.excise text).1 ++ visibleText index
        (c.applyOne blocks.literals (.contentBlockStop index)).2 =
      stripControlBlocks blocks.literals text := by
  have hsplit := blocks.rule.released_append_held (blocks.rule.excise text).1
  have hstop : visibleText index [.contentBlockStop index] = [] := rfl
  rw [blocks.stripControlBlocks_eq, applyOne]
  dsimp only
  rw [h.pending]
  split_ifs with hnil
  · rw [hnil, List.append_nil] at hsplit
    rw [hstop, List.append_nil, hsplit]
  · obtain ⟨skips, hclean, -⟩ := clean_eq blocks
      { c with pending := KeyedList.remove index c.pending } index
      (blocks.rule.held (blocks.rule.excise text).1)
    rw [hclean]
    dsimp only
    rw [visibleText_append, visibleText_textEvents, hstop, List.append_nil,
      hsettled.excise_held, hsplit]

theorem Follows.apply_textDeltas (h : Follows blocks c index text) {chunks : List (List Char)}
    (hsettled : ∀ earlier, earlier <+: chunks →
      blocks.rule.Settled (text ++ earlier.flatten)) :
    blocks.rule.released (blocks.rule.excise text).1 ++ visibleText index
        (c.apply blocks.literals (textDeltas index chunks ++ [.contentBlockStop index])).2 =
      stripControlBlocks blocks.literals (text ++ chunks.flatten) := by
  have hnow : blocks.rule.Settled text := by
    have hnil := hsettled [] List.nil_prefix
    rwa [List.flatten_nil, List.append_nil] at hnil
  induction chunks generalizing c text with
  | nil =>
    have hstop := h.stop hnow
    simpa [apply, textDeltas] using hstop
  | cons chunk chunks ih =>
    have hlater : ∀ earlier, earlier <+: chunks →
        blocks.rule.Settled (text ++ chunk ++ earlier.flatten) := by
      intro earlier hearlier
      have hlonger := hsettled (chunk :: earlier) (List.cons_prefix_cons.mpr ⟨rfl, hearlier⟩)
      rwa [List.flatten_cons, ← List.append_assoc] at hlonger
    have hnext : blocks.rule.Settled (text ++ chunk) := by
      have hnil := hlater [] List.nil_prefix
      rwa [List.flatten_nil, List.append_nil] at hnil
    obtain ⟨hfollows, hreleased⟩ := h.delta hnow hnext
    have hrun := ih hfollows hlater hnext
    rw [← hreleased] at hrun
    rw [List.flatten_cons, ← List.append_assoc, ← hrun]
    simp [apply, textDeltas]

end ControlBlockCleaner

end KiroProxy.ControlBlock
