import KiroProxy.StructuredOutput

/-!
# Numbers of the blocks of a structured answer

Whatever increasing numbers the blocks of a stream have, the client gets whole blocks, numbered
from 0, one after the other. Events that belong to no block go through at once.
-/

namespace KiroProxy.StructuredOutput
open MessageStream Transducer StructuredOutputStreamRewriter

/-- Neither of a block nor of the end of the message. -/
def isPlain : Event → Bool
  | .messageStart _ _ _ => true
  | .ping => true
  | _ => false

/-- A block as the client gets it. -/
def rewritten (target : StructuredOutputTarget) (streamed : Streamed) : Streamed :=
  if startsTarget target streamed then structuredStreamed streamed else streamed

/-- Neither a text nor a call of the internal tool. -/
def isClientBlock (target : StructuredOutputTarget) (streamed : Streamed) : Bool :=
  !startsText streamed && !startsTarget target streamed

variable {target : StructuredOutputTarget} {streamed : Streamed}

theorem rewritten_of_target (h : startsTarget target streamed = true) :
    rewritten target streamed = structuredStreamed streamed := if_pos h

theorem rewritten_of_not_target (h : startsTarget target streamed = false) :
    rewritten target streamed = streamed := if_neg (by rw [h]; exact Bool.false_ne_true)

theorem startsTarget_of_text (h : startsText streamed = true) :
    startsTarget target streamed = false := by
  unfold startsText at h
  unfold startsTarget
  cases hstart : streamed.start with
  | text text => rfl
  | _ =>
    rw [hstart] at h
    cases h

theorem map_rewritten_of_text {held : List Streamed} (h : ∀ streamed ∈ held, startsText streamed) :
    held.map (rewritten target) = held := by
  refine (List.map_congr_left fun streamed hmem => ?_).trans (List.map_id held)
  exact rewritten_of_not_target (startsTarget_of_text (h streamed hmem))

/-- What is let through are blocks in their order, among them all that are the client's own. -/
theorem exists_kept (target : StructuredOutputTarget) (structuredSeen clientToolSeen : Bool)
    {held : List Streamed} (hheld : ∀ streamed ∈ held, startsText streamed = true)
    (blocks : List Streamed) :
    ∃ kept : List Streamed, forwarded target structuredSeen clientToolSeen held blocks =
        kept.map (rewritten target) ∧
      kept.Sublist (held ++ blocks) ∧
      kept.filter (isClientBlock target) = (held ++ blocks).filter (isClientBlock target) := by
  induction blocks generalizing structuredSeen clientToolSeen held with
  | nil =>
    rw [List.append_nil]
    exact ⟨held, (map_rewritten_of_text hheld).symm, .refl _, rfl⟩
  | cons streamed blocks ih =>
    have hnone : held.filter (isClientBlock target) = [] :=
      List.filter_eq_nil_iff.mpr fun block hmem => by
        rw [isClientBlock, hheld block hmem]
        exact Bool.false_ne_true
    rw [forwarded]
    cases htarget : isTargetToolBlock target streamed.start with
    | true =>
      have hdropped : isClientBlock target streamed = false := by
        rw [isClientBlock, show startsTarget target streamed = true from htarget, Bool.not_true,
          Bool.and_false]
      rw [if_pos rfl]
      cases structuredSeen with
      | true =>
        obtain ⟨kept, hforwarded, hsublist, hfilter⟩ := ih true clientToolSeen hheld
        refine ⟨kept, (if_pos rfl).trans hforwarded, ?_, ?_⟩
        · exact hsublist.trans ((List.sublist_cons_self _ _).append_left held)
        · rw [hfilter, List.filter_append, List.filter_append,
            List.filter_cons_of_neg (by rw [hdropped]; exact Bool.false_ne_true)]
      | false =>
        obtain ⟨kept, hforwarded, hsublist, hfilter⟩ :=
          ih true clientToolSeen (List.forall_mem_nil _)
        refine ⟨streamed :: kept, ?_, ?_, ?_⟩
        · rw [if_neg Bool.false_ne_true, hforwarded, List.map_cons, rewritten_of_target htarget]
        · exact (hsublist.cons_cons streamed).trans (List.sublist_append_right held _)
        · rw [List.filter_append, hnone,
            List.filter_cons_of_neg (by rw [hdropped]; exact Bool.false_ne_true),
            List.filter_cons_of_neg (by rw [hdropped]; exact Bool.false_ne_true), hfilter]
          rfl
    | false =>
      rw [if_neg Bool.false_ne_true]
      split_ifs with htext
      · rw [Bool.and_eq_true] at htext
        have hheld' : ∀ block ∈ held ++ [streamed], startsText block = true := by
          intro block hmem
          rcases List.mem_append.mp hmem with hmem | hmem
          · exact hheld block hmem
          · rw [List.mem_singleton.mp hmem]
            exact htext.2
        obtain ⟨kept, hforwarded, hsublist, hfilter⟩ :=
          ih structuredSeen (clientToolSeen || streamed.start.isToolUse) hheld'
        rw [List.append_assoc, List.singleton_append] at hsublist hfilter
        exact ⟨kept, hforwarded, hsublist, hfilter⟩
      · obtain ⟨kept, hforwarded, hsublist, hfilter⟩ :=
          ih structuredSeen (clientToolSeen || streamed.start.isToolUse) (List.forall_mem_nil _)
        refine ⟨held ++ streamed :: kept, ?_, ?_, ?_⟩
        · rw [hforwarded, List.map_append, List.map_cons, map_rewritten_of_text hheld,
            rewritten_of_not_target htarget]
        · exact (hsublist.cons_cons streamed).append_left held
        · rw [List.filter_append, List.filter_append, List.filter_cons, List.filter_cons, hfilter]
          rfl

theorem push_plain (rewriter : StructuredOutputStreamRewriter) {event : Event}
    (h : isPlain event = true) : rewriter.push event = (rewriter, [event]) := by
  cases event with
  | messageStart id model usage => rfl
  | ping => rfl
  | _ => cases h

theorem filter_not_plain_streamFrom (index : ℕ) (blocks : List Streamed) :
    (streamFrom index blocks).filter (fun event => !isPlain event) = streamFrom index blocks := by
  refine List.filter_eq_self.mpr fun event hmem => ?_
  induction blocks generalizing index with
  | nil => cases hmem
  | cons streamed blocks ih =>
    rw [streamFrom, events_eq] at hmem
    rcases List.mem_append.mp hmem with hmem | hmem
    · rcases List.mem_cons.mp hmem with rfl | hmem
      · rfl
      · rcases mem_innerEvents hmem with ⟨delta, rfl⟩ | rfl
        · rfl
        · rfl
    · exact ih (index + 1) hmem

/-- The client's stream for any blocks of increasing numbers: some of them, whole and in their
order, the answer as a text, numbered from 0, and none missing that is neither a text nor a call of
the internal tool. -/
theorem apply_wellFormed (target : StructuredOutputTarget) {events : List Event}
    {blocks : List (ℕ × Streamed)} (hincreasing : (blocks.map Prod.fst).Pairwise (· < ·))
    {stopReason : Option (List Char)} {usage : UsageFields}
    (hevents : events.filter (fun event => !isPlain event) =
      eventsAt blocks ++ [.messageDelta stopReason usage, .messageStop]) :
    ∃ kept : List Streamed, ∃ stopReason',
      ((new target).apply events).2.filter (fun event => !isPlain event) =
        streamFrom 0 (kept.map (rewritten target)) ++
          [.messageDelta stopReason' usage, .messageStop] ∧
      kept.Sublist (blocks.map Prod.snd) ∧
      kept.filter (isClientBlock target) =
        (blocks.map Prod.snd).filter (isClientBlock target) := by
  obtain ⟨kept, hforwarded, hsublist, hfilter⟩ :=
    @exists_kept target false false [] nofun (blocks.map Prod.snd)
  have hsilent := (@run_of_silent _ _ _ push isPlain (fun event => !isPlain event)
    (fun rewriter event h => by
      rw [push_plain rewriter h, List.filter_singleton, h]
      exact ⟨rfl, rfl⟩) (new target) events).2
  have happly := applyEventsAt_eq target hincreasing stopReason usage
  rw [hforwarded] at happly
  unfold apply at happly
  rw [hevents, happly, List.filter_append, filter_not_plain_streamFrom] at hsilent
  exact ⟨kept, _, hsilent.symm, hsublist, hfilter⟩

/-- A ping within a text that is dropped, and gaps between the numbers. -/
theorem apply_wellFormed_gaps :
    ∃ kept : List Streamed, ∃ stopReason',
      ((new internalTool).apply
        [.messageStart none none noUsage, .contentBlockStart 2 (.text []), .ping,
          .contentBlockDelta 2 (.textDelta "Sure.".toList), .contentBlockStop 2,
          .contentBlockStart 5 answer.start,
          .contentBlockDelta 5 (.inputJsonDelta emptyObject), .contentBlockStop 5,
          .messageDelta (some toolUseStopReason) noUsage, .messageStop]).2.filter
            (fun event => !isPlain event) =
        streamFrom 0 (kept.map (rewritten internalTool)) ++
          [.messageDelta stopReason' noUsage, .messageStop] ∧
      kept.Sublist [preamble, answer] ∧
      kept.filter (isClientBlock internalTool) =
        [preamble, answer].filter (isClientBlock internalTool) :=
  @apply_wellFormed internalTool _ [(2, preamble), (5, answer)] (by decide) _ _ rfl

end KiroProxy.StructuredOutput
