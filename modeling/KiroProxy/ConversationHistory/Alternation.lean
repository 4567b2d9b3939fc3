import KiroProxy.ConversationHistory.Merge

/-!
# Alternation of a built history

The loop keeps two buffers, of which one is empty. The history ends with a user turn exactly
while assistant messages wait, so that every flush continues the alternation.
-/

namespace KiroProxy.ConversationHistory

open Json PayloadGuard TranscriptSanitizer Transition
open Converter (ConversionError ToolNameMap)
open HistoryBuild (endsWithUser)

def isUserTurn : Message → Bool
  | .user _ => true
  | .assistant _ => false

def turnContent : Message → String
  | .user user => user.content
  | .assistant assistant => assistant.content

structure Alternates (history : List Message) : Prop where
  chain : history.IsChain fun turn next => isUserTurn turn ≠ isUserTurn next
  head : ∀ turn ∈ history.head?, isUserTurn turn = true

theorem endsWithUser_append (history : List Message) (turn : Message) :
    endsWithUser (history ++ [turn]) = isUserTurn turn := by
  unfold endsWithUser
  rw [List.getLast?_concat]
  cases turn <;> rfl

theorem endsWithUser_eq {history : List Message} {turn : Message} (h : turn ∈ history.getLast?) :
    endsWithUser history = isUserTurn turn := by
  unfold endsWithUser
  rw [Option.mem_def.mp h]
  cases turn <;> rfl

theorem Alternates.append {history : List Message} {turn : Message} (h : Alternates history)
    (hturn : isUserTurn turn = !endsWithUser history) :
    Alternates (history ++ [turn]) := by
  refine ⟨List.isChain_append.mpr ⟨h.chain, List.isChain_singleton _, ?_⟩, ?_⟩
  · intro last hlast next hnext
    cases hnext
    rw [hturn, endsWithUser_eq hlast]
    exact Bool.self_ne_not _
  · cases history with
    | nil =>
      intro first hfirst
      cases hfirst
      exact hturn
    | cons => exact h.head

variable {readers : Readers} {options : Options} {knownToolNames : List String}

/-- A turn is made of messages: of none for the turns that the loop adds by itself. The text of
the messages is all there, unless the sanitizer counts a leak in an assistant turn. -/
inductive Made (readers : Readers) (options : Options) (knownToolNames : List String) :
    Message → List AnthropicMessage → Prop
  | placeholder : Made readers options knownToolNames (userTurn emptyUserContentPlaceholder) []
  | answer : Made readers options knownToolNames (assistantTurn "OK") []
  | user {messages : List AnthropicMessage} {user : UserMessage}
      {seenImages seenImages' : Option SeenHistoryImages}
      (nonempty : messages ≠ []) (roles : ∀ message ∈ messages, message.role = "user")
      (merge : mergeUserMessages readers seenImages messages = .ok (user, seenImages'))
      (carried : (messages.flatMap (spokenText readers)).Sublist user.content.toList) :
      Made readers options knownToolNames (.user user) messages
  | assistant {messages : List AnthropicMessage} {toolNameMap : ToolNameMap}
      {merged : MergedAssistant}
      (nonempty : messages ≠ []) (roles : ∀ message ∈ messages, message.role = "assistant")
      (merge : mergeAssistantMessages readers options knownToolNames toolNameMap ⟨0, 0⟩ messages =
        .ok merged)
      (carried : merged.warnings.sanitizedAssistantHistoryLeaks = 0 →
        (messages.flatMap (spokenText readers)).Sublist merged.message.content.toList) :
      Made readers options knownToolNames (.assistant merged.message) messages

theorem Made.content_ne_empty {turn : Message} {messages : List AnthropicMessage}
    (h : Made readers options knownToolNames turn messages) : turnContent turn ≠ "" := by
  cases h with
  | placeholder => decide
  | answer => decide
  | user _ _ merge _ => exact (mergeUserMessages_spec merge).1
  | assistant _ _ merge _ => exact (mergeAssistantMessages_spec merge).1

structure Written (readers : Readers) (options : Options) (knownToolNames : List String)
    (system history : List Message) (messages : List AnthropicMessage) : Prop where
  alternates : Alternates history
  made : ∃ turns : List (Message × List AnthropicMessage),
    history = system ++ turns.map Prod.fst ∧ messages = turns.flatMap Prod.snd ∧
      ∀ turn ∈ turns, Made readers options knownToolNames turn.1 turn.2

theorem Written.append {system history : List Message} {messages added : List AnthropicMessage}
    {turn : Message} (h : Written readers options knownToolNames system history messages)
    (hmade : Made readers options knownToolNames turn added)
    (hturn : isUserTurn turn = !endsWithUser history) :
    Written readers options knownToolNames system (history ++ [turn]) (messages ++ added) := by
  refine ⟨h.alternates.append hturn, ?_⟩
  obtain ⟨turns, rfl, rfl, hturns⟩ := h.made
  refine ⟨turns ++ [(turn, added)], ?_, ?_, ?_⟩
  · rw [List.map_append, List.map_singleton, List.append_assoc]
  · rw [List.flatMap_append, List.flatMap_singleton]
  · intro next hnext
    rcases List.mem_append.mp hnext with hnext | hnext
    · exact hturns next hnext
    · rw [List.mem_singleton] at hnext
      subst hnext
      exact hmade

def isTurn (message : AnthropicMessage) : Bool :=
  message.role == "user" || message.role == "assistant"

namespace HistoryBuild

variable {system : List Message} {build build' : HistoryBuild} {message : AnthropicMessage}
  {done written : List AnthropicMessage}

/-- What holds between two messages. -/
structure Reached (readers : Readers) (options : Options) (knownToolNames : List String)
    (system : List Message) (done : List AnthropicMessage) (build : HistoryBuild) : Prop where
  written : ∃ written, Written readers options knownToolNames system build.history written ∧
    written ++ build.userBuffer ++ build.assistantBuffer = done.filter isTurn
  oneBuffer : build.userBuffer = [] ∨ build.assistantBuffer = []
  pending : endsWithUser build.history = true ↔ build.assistantBuffer ≠ []
  userRoles : ∀ message ∈ build.userBuffer, message.role = "user"
  assistantRoles : ∀ message ∈ build.assistantBuffer, message.role = "assistant"

theorem Written.flushUser
    (h : Written readers options knownToolNames system build.history written)
    (hne : build.userBuffer ≠ []) (hroles : ∀ message ∈ build.userBuffer, message.role = "user")
    (hends : endsWithUser build.history = false)
    (hflush : build.flushUser readers = .ok build') :
    Written readers options knownToolNames system build'.history (written ++ build.userBuffer) ∧
      endsWithUser build'.history = true ∧ build'.userBuffer = [] ∧
      build'.assistantBuffer = build.assistantBuffer := by
  obtain ⟨⟨user, seenImages⟩, hmerge, hflush⟩ := exists_of_bind_eq_ok hflush
  cases hflush
  have hmade : Made readers options knownToolNames (.user user) build.userBuffer :=
    .user hne hroles hmerge (mergeUserMessages_spec hmerge).2
  refine ⟨h.append hmade ?_, endsWithUser_append _ _, rfl, rfl⟩
  rw [hends]
  rfl

theorem Written.flushAssistant
    (h : Written readers options knownToolNames system build.history written)
    (hne : build.assistantBuffer ≠ [])
    (hroles : ∀ message ∈ build.assistantBuffer, message.role = "assistant")
    (hends : endsWithUser build.history = true)
    (hflush : build.flushAssistant readers options knownToolNames = .ok build') :
    Written readers options knownToolNames system build'.history
        (written ++ build.assistantBuffer) ∧
      endsWithUser build'.history = false ∧ build'.assistantBuffer = [] ∧
      build'.userBuffer = build.userBuffer := by
  obtain ⟨merged, hmerge, hflush⟩ := exists_of_bind_eq_ok hflush
  cases hflush
  -- The turn does not depend on the leaks that were counted before it.
  obtain ⟨after, hafter⟩ := mergeAssistantMessages_warnings hmerge ⟨0, 0⟩
  have hmade : Made readers options knownToolNames (.assistant merged.message)
      build.assistantBuffer :=
    @Made.assistant readers options knownToolNames build.assistantBuffer build.toolNameMap
      ⟨merged.message, merged.toolNameMap, after⟩ hne hroles hafter fun hzero =>
        (mergeAssistantMessages_spec hafter).2 ⟨by decide, hzero⟩
  refine ⟨h.append hmade ?_, endsWithUser_append _ _, rfl, rfl⟩
  rw [hends]
  rfl

theorem Reached.settle (h : Reached readers options knownToolNames system done build)
    (hsettle : build.settleAssistant readers options knownToolNames = .ok build') :
    Reached readers options knownToolNames system done build' ∧ build'.assistantBuffer = [] := by
  unfold settleAssistant at hsettle
  split_ifs at hsettle with hbuffer
  · obtain ⟨written, hwritten, hmessages⟩ := h.written
    have huser := h.oneBuffer.resolve_right hbuffer
    obtain ⟨hwritten', hends, hempty, hkept⟩ :=
      Written.flushAssistant hwritten hbuffer h.assistantRoles (h.pending.mpr hbuffer) hsettle
    refine ⟨⟨⟨_, hwritten', ?_⟩, .inr hempty, ?_, ?_, ?_⟩, hempty⟩
    · rw [hkept, hempty, huser, List.append_nil, List.append_nil, ← hmessages, huser,
        List.append_nil]
    · rw [hends, hempty]
      exact ⟨nofun, fun hne => absurd rfl hne⟩
    · rw [hkept]
      exact h.userRoles
    · rw [hempty]
      exact nofun
  · cases hsettle
    exact ⟨h, not_not.mp hbuffer⟩

theorem Reached.pushUser (h : Reached readers options knownToolNames system done build)
    (hbuffer : build.assistantBuffer = []) (hrole : message.role = "user") :
    Reached readers options knownToolNames system (done ++ [message])
      { build with userBuffer := build.userBuffer ++ [message] } := by
  obtain ⟨written, hwritten, hmessages⟩ := h.written
  refine ⟨⟨written, hwritten, ?_⟩, .inr hbuffer, h.pending, ?_, h.assistantRoles⟩
  · have hturn : isTurn message = true := by simp [isTurn, hrole]
    rw [hbuffer, List.append_nil] at hmessages
    rw [List.filter_append, List.filter_cons_of_pos hturn, List.filter_nil, ← hmessages]
    dsimp only
    rw [hbuffer, List.append_nil, List.append_assoc]
  · intro next hnext
    rcases List.mem_append.mp hnext with hnext | hnext
    · exact h.userRoles next hnext
    · rw [List.mem_singleton.mp hnext]
      exact hrole

theorem Reached.pushAssistant
    (hwritten : Written readers options knownToolNames system build.history written)
    (hmessages : written ++ build.assistantBuffer = done.filter isTurn)
    (huser : build.userBuffer = []) (hends : endsWithUser build.history = true)
    (hroles : ∀ message ∈ build.assistantBuffer, message.role = "assistant")
    (hrole : message.role = "assistant") :
    Reached readers options knownToolNames system (done ++ [message])
      { build with assistantBuffer := build.assistantBuffer ++ [message] } := by
  refine ⟨⟨written, hwritten, ?_⟩, .inl huser, ?_, ?_, ?_⟩
  · have hturn : isTurn message = true := by simp [isTurn, hrole]
    rw [List.filter_append, List.filter_cons_of_pos hturn, List.filter_nil, ← hmessages]
    dsimp only
    rw [huser, List.append_nil, List.append_assoc]
  · exact ⟨fun _ => List.append_ne_nil_of_right_ne_nil _ (List.cons_ne_nil _ _), fun _ => hends⟩
  · dsimp only
    rw [huser]
    exact nofun
  · intro next hnext
    rcases List.mem_append.mp hnext with hnext | hnext
    · exact hroles next hnext
    · rw [List.mem_singleton.mp hnext]
      exact hrole

theorem Reached.add (h : Reached readers options knownToolNames system done build)
    (hadd : build.add readers options knownToolNames message = .ok build') :
    Reached readers options knownToolNames system (done ++ [message]) build' := by
  unfold HistoryBuild.add at hadd
  split at hadd
  · next hrole =>
    obtain ⟨settled, hsettle, hadd⟩ := exists_of_bind_eq_ok hadd
    cases hadd
    obtain ⟨hsettled, hbuffer⟩ := h.settle hsettle
    exact hsettled.pushUser hbuffer hrole
  · split at hadd
    · next hrole =>
      obtain ⟨settled, hsettle, hadd⟩ := exists_of_bind_eq_ok hadd
      cases hadd
      obtain ⟨written, hwritten, hmessages⟩ := h.written
      unfold settleUser at hsettle
      split at hsettle
      · next huser =>
        have hbuffer := h.oneBuffer.resolve_left huser
        have hends : endsWithUser build.history = false := by
          rw [Bool.eq_false_iff]
          exact fun hends => h.pending.mp hends hbuffer
        obtain ⟨hwritten', hends', hempty, hkept⟩ :=
          Written.flushUser hwritten huser h.userRoles hends hsettle
        rw [hbuffer, List.append_nil] at hmessages
        refine Reached.pushAssistant hwritten' ?_ hempty hends' ?_ hrole
        · rw [hkept, hbuffer, List.append_nil, hmessages]
        · rw [hkept]
          exact h.assistantRoles
      · next huser =>
        rw [not_not] at huser
        rw [huser, List.append_nil] at hmessages
        split at hsettle
        · next hplaceholder =>
          cases hsettle
          have hwritten' := hwritten.append
            (@Made.placeholder readers options knownToolNames)
            (by rw [hplaceholder.2]; rfl)
          rw [List.append_nil] at hwritten'
          exact Reached.pushAssistant hwritten' hmessages huser (endsWithUser_append _ _)
            h.assistantRoles hrole
        · next hwaits =>
          cases hsettle
          have hends : endsWithUser build.history = true := by
            by_contra hends
            have hbuffer : build.assistantBuffer = [] := by
              by_contra hne
              exact hends (h.pending.mpr hne)
            exact hwaits ⟨hbuffer, Bool.eq_false_iff.mpr hends⟩
          exact Reached.pushAssistant hwritten hmessages huser hends h.assistantRoles hrole
    · next huser hassistant =>
      cases hadd
      have hturn : isTurn message = false := by simp [isTurn, huser, hassistant]
      refine ⟨?_, h.oneBuffer, h.pending, h.userRoles, h.assistantRoles⟩
      rw [List.filter_append, List.filter_cons_of_neg (Bool.eq_false_iff.mp hturn), List.filter_nil,
        List.append_nil]
      exact h.written

theorem Reached.addAll {messages : List AnthropicMessage}
    (h : Reached readers options knownToolNames system done build)
    (hadd : messages.foldlM (fun (build : HistoryBuild) message =>
      build.add readers options knownToolNames message) build = .ok build') :
    Reached readers options knownToolNames system (done ++ messages) build' := by
  induction messages generalizing build done with
  | nil =>
    cases hadd
    rw [List.append_nil]
    exact h
  | cons message messages ih =>
    rw [List.foldlM_cons] at hadd
    obtain ⟨next, hfirst, hrest⟩ := exists_of_bind_eq_ok hadd
    rw [List.append_cons]
    exact ih (h.add hfirst) hrest

theorem Reached.finish (h : Reached readers options knownToolNames system done build)
    (hfinish : build.finish readers options knownToolNames = .ok build') :
    Written readers options knownToolNames system build'.history (done.filter isTurn) ∧
      endsWithUser build'.history = false := by
  obtain ⟨settled, hsettle, hfinish⟩ := exists_of_bind_eq_ok hfinish
  obtain ⟨hsettled, hbuffer⟩ := h.settle hsettle
  obtain ⟨written, hwritten, hmessages⟩ := hsettled.written
  have hends : endsWithUser settled.history = false := by
    rw [Bool.eq_false_iff]
    exact fun hends => hsettled.pending.mp hends hbuffer
  rw [hbuffer, List.append_nil] at hmessages
  split at hfinish
  · next huser =>
    obtain ⟨flushed, hflush, hfinish⟩ := exists_of_bind_eq_ok hfinish
    cases hfinish
    obtain ⟨hwritten', hends', -, -⟩ :=
      Written.flushUser hwritten huser hsettled.userRoles hends hflush
    have hanswered := hwritten'.append (@Made.answer readers options knownToolNames)
      (by rw [hends']; rfl)
    rw [List.append_nil, hmessages] at hanswered
    exact ⟨hanswered, endsWithUser_append _ _⟩
  · next huser =>
    cases hfinish
    rw [not_not.mp huser, List.append_nil] at hmessages
    exact ⟨hmessages ▸ hwritten, hends⟩

end HistoryBuild

variable {prefixes : PrefixOptions} {req : MessagesRequest} {modelId : String}
  {toolNameMap : ToolNameMap}

theorem append_ne_empty_of_left {s : String} (h : s ≠ "") (t : String) : s ++ t ≠ "" := by
  rw [Ne, String.append_eq_empty_iff]
  exact fun hempty => h hempty.1

theorem append_ne_empty_of_right {t : String} (s : String) (h : t ≠ "") : s ++ t ≠ "" := by
  rw [Ne, String.append_eq_empty_iff]
  exact fun hempty => h hempty.2

theorem prepend_ne_empty (c : Bool) {t : String} (s : String) (h : t ≠ "") :
    (if c then s ++ t else t) ≠ "" := by
  split_ifs
  · exact append_ne_empty_of_right s h
  · exact h

theorem adaptivePrefix_ne_empty (effort outputPolicy : String) :
    adaptivePrefix effort outputPolicy ≠ "" := by
  unfold adaptivePrefix
  rw [String.append_assoc, String.append_assoc]
  exact append_ne_empty_of_left (by decide) _

theorem generateThinkingPrefix_ne_empty {text : String}
    (h : generateThinkingPrefix prefixes req modelId = .ok (some text)) : text ≠ "" := by
  have hadaptive : ∀ policy, (do
      let effort ← legacyPromptEffort req
      return some (adaptivePrefix effort policy)) = .ok (some text) → text ≠ "" := by
    intro policy h
    obtain ⟨effort, -, h⟩ := exists_of_bind_eq_ok h
    cases h
    exact adaptivePrefix_ne_empty _ _
  unfold generateThinkingPrefix at h
  dsimp only at h
  split at h
  · split at h
    · exact hadaptive _ h
    · cases h
  · split at h
    · cases h
    · split at h
      · cases h
        rw [String.append_assoc, String.append_assoc]
        exact append_ne_empty_of_left (by decide) _
      · split at h
        · exact hadaptive _ h
        · split at h
          · exact hadaptive _ h
          · cases h

theorem injectedThinkingPrefix_ne_empty {thinkingPrefix : Option String}
    (h : injectedThinkingPrefix prefixes req modelId = .ok thinkingPrefix) :
    ∀ text ∈ thinkingPrefix, text ≠ "" := by
  rintro text rfl
  unfold injectedThinkingPrefix generateThinkingPrefixForModel at h
  split_ifs at h
  · cases h
  · exact generateThinkingPrefix_ne_empty h
  · cases h

theorem toolChoiceDirectivePrefix_ne_empty (directive : Converter.ToolChoiceDirective) :
    ∀ text ∈ toolChoiceDirectivePrefix req toolNameMap directive, text ≠ "" := by
  have hnone : toolChoiceNonePrefix ≠ "" := by simp [toolChoiceNonePrefix]
  rintro text htext
  cases directive with
  | any =>
    cases htext
    decide
  | tool name =>
    cases htext
    unfold toolChoiceToolPrefix
    rw [String.append_assoc]
    exact append_ne_empty_of_left (by decide) _
  | _ =>
    dsimp only [toolChoiceDirectivePrefix] at htext
    split_ifs at htext
    · exact Option.some.inj htext ▸ hnone
    · cases htext

theorem generateToolChoicePrefix_ne_empty :
    ∀ text ∈ generateToolChoicePrefix prefixes req toolNameMap, text ≠ "" := by
  intro text htext
  unfold generateToolChoicePrefix at htext
  dsimp only at htext
  split_ifs at htext
  · cases htext
  · exact toolChoiceDirectivePrefix_ne_empty _ text htext
  · cases htext
    split
    · exact append_ne_empty_of_right _ (by decide)
    · decide

/-- The turns with the system prompt are a pair, or there are none. -/
theorem withPolicy_ne_empty {content : String} (h : content ≠ "") (policy : Option String) :
    (match policy with
      | some text => content ++ "\n" ++ text
      | none => content) ≠ "" := by
  cases policy with
  | none => exact h
  | some text => exact append_ne_empty_of_left (append_ne_empty_of_left h _) _

theorem systemTurns_pair {thinkingPrefix toolChoicePrefix : Option String}
    (hthinking : ∀ text ∈ thinkingPrefix, text ≠ "")
    (hchoice : ∀ text ∈ toolChoicePrefix, text ≠ "") :
    (systemTurns prefixes req thinkingPrefix toolChoicePrefix).1 = [] ∨
      ∃ content, content ≠ "" ∧ (systemTurns prefixes req thinkingPrefix toolChoicePrefix).1 =
        [userTurn content, assistantTurn systemAcknowledgement] := by
  unfold systemTurns
  split
  · next system _ =>
    dsimp only
    split
    · exact .inl rfl
    · next hcontent =>
      refine .inr ⟨_, ?_, rfl⟩
      have hpolicy := withPolicy_ne_empty hcontent
      cases thinkingPrefix with
      | none =>
        cases toolChoicePrefix with
        | none => exact hpolicy _
        | some choice => exact append_ne_empty_of_right _ (hpolicy _)
      | some thinking =>
        cases toolChoicePrefix with
        | none => exact prepend_ne_empty _ _ (hpolicy _)
        | some choice => exact prepend_ne_empty _ _ (append_ne_empty_of_right _ (hpolicy _))
  · dsimp only
    split
    · exact .inl rfl
    · next hprefixes =>
      refine .inr ⟨_, ?_, rfl⟩
      cases thinkingPrefix with
      | none =>
        cases toolChoicePrefix with
        | none => exact absurd rfl hprefixes
        | some choice => exact hchoice choice rfl
      | some thinking =>
        rw [Option.toList_some, List.singleton_append]
        cases toolChoicePrefix with
        | none => exact hthinking thinking rfl
        | some choice =>
          exact append_ne_empty_of_right _ (hchoice choice rfl)

/-- Readers for messages that consist of text. -/
def textReaders : Readers where
  documentBlockToText _ := .ok ""
  renderServerToolBlock _ := none
  convertImageSource _ := .error (.unsupportedContent "image")
  parseDataUrl _ := none
  extractToolResultContent _ := ""
  extractToolResultImages _ := ([], [])
  sanitizeToolUseId id := some id
  isSyntheticThinkingSignature _ := false
  sha256 _ := 0

def plainOptions : Options := ⟨false, false, true, true⟩

def plainPrefixes : PrefixOptions :=
  ⟨false, false, false, false, none, fun _ _ => false, id⟩

def plainRequest (messages : List AnthropicMessage) : MessagesRequest :=
  ⟨"claude-sonnet-4", messages, none, some [⟨none, "Bash", "", [], none, none⟩], none, none, none⟩

def buildPlainHistory (messages : List AnthropicMessage) : Except ConversionError BuiltHistory :=
  buildHistory textReaders plainOptions plainPrefixes (plainRequest messages) messages
    "claude-sonnet-4" [] ⟨0, 0⟩

def greetingMessages : List AnthropicMessage :=
  [⟨"assistant", .str "Hello"⟩, ⟨"system", .str "Be brief"⟩, ⟨"user", .str "One"⟩,
    ⟨"user", .str "Two"⟩, ⟨"user", .str "Three"⟩]

end KiroProxy.ConversationHistory
