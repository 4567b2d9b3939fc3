import KiroProxy.TranscriptSanitizer.History
import KiroProxy.TranscriptSanitizer.Prefilter

/-!
# The raw path

A body that both prefilters reject is forwarded without being parsed. All headings that the
sanitizer could find in it are spread over several texts of one segment: a heading within one
string would have been seen by the prefilter.
-/

namespace KiroProxy.TranscriptSanitizer

open JsonText

def heading (line : List Char) : List Char := trimEndBlanks (dropTrailing '\r' line)

def SplitRoleLine (texts : List (List Char)) : Prop :=
  ∃ earlier later before left right after, texts = earlier ++ later ∧
    earlier.flatten = before ++ left ∧ later.flatten = right ++ '\n' :: after ∧
    AtLineStart before ∧ isRoleLine (left ++ right) = true ∧ left ≠ [] ∧
    left.length < (heading (left ++ right)).length

theorem trimEndBlanks_isPrefix (text : List Char) : trimEndBlanks text <+: text := by
  rw [trimEndBlanks, ← List.reverse_suffix, List.reverse_reverse]
  exact List.dropWhile_suffix _

theorem dropTrailing_isPrefix (c : Char) (text : List Char) : dropTrailing c text <+: text := by
  rw [dropTrailing]
  split_ifs
  · exact List.dropLast_prefix text
  · exact List.prefix_refl text

theorem heading_isPrefix (line : List Char) : heading line <+: line :=
  (trimEndBlanks_isPrefix _).trans (dropTrailing_isPrefix _ _)

theorem heading_mem_roleLines {line : List Char} (h : isRoleLine line = true) :
    heading line ∈ roleLines := by
  rw [isRoleLine, ToolTranscriptSanitizer.roleLineKind] at h
  change trimEndBlanks (dropTrailing '\r' line) ∈ newRoleLines ++ oldRoleLines ++ rolelessResultLines
  simp only [List.mem_append]
  split_ifs at h with h1 h2 h3
  · exact Or.inl (Or.inl (List.contains_iff_mem.mp h1))
  · exact Or.inl (Or.inr (List.contains_iff_mem.mp h2))
  · exact Or.inr (List.contains_iff_mem.mp h3)
  · cases h

variable {texts : List (List Char)} {text s : List Char}

theorem exists_text_of_flatten {before rest : List Char} (h : texts.flatten = before ++ rest)
    (hrest : rest ≠ []) :
    ∃ earlier a b later, texts = earlier ++ (a ++ b) :: later ∧ b ≠ [] ∧
      before = earlier.flatten ++ a ∧ rest = b ++ later.flatten := by
  induction texts generalizing before with
  | nil => simp_all
  | cons text texts ih =>
    rw [List.flatten_cons] at h
    rcases List.append_eq_append_iff.mp h with ⟨a, rfl, hflat⟩ | ⟨b, rfl, rfl⟩
    · obtain ⟨earlier, a', b, later, rfl, hb, rfl, rfl⟩ := ih hflat
      exact ⟨text :: earlier, a', b, later, by simp, hb, by simp, rfl⟩
    · cases b with
      | nil =>
        have hflat : texts.flatten = [] ++ ([] ++ texts.flatten) := rfl
        obtain ⟨earlier, a', b, later, htexts, hb, hnil, hrest⟩ := ih hflat
        obtain ⟨hearlier, rfl⟩ := List.append_eq_nil_iff.mp hnil.symm
        exact ⟨(before ++ []) :: earlier, [], b, later, by rw [htexts]; rfl, hb, by simp [hearlier],
          hrest⟩
      | cons c b => exact ⟨[], before, c :: b, texts, rfl, List.cons_ne_nil _ _, rfl, rfl⟩

theorem AtLineStart.of_append {text tail : List Char} (h : AtLineStart (text ++ tail)) :
    AtLineStart tail := by
  rcases List.eq_nil_or_concat tail with rfl | ⟨tail, c, rfl⟩
  · exact Or.inl rfl
  · rcases h with hnil | ⟨text', heq⟩
    · simp at hnil
    · rw [List.concat_eq_append, ← List.append_assoc] at heq
      obtain ⟨-, hc⟩ := List.append_inj' heq rfl
      rw [List.concat_eq_append, hc]
      exact Or.inr ⟨tail, rfl⟩

theorem exists_heading_of_hasRoleLine (h : HasRoleLine texts.flatten)
    (hsplit : ¬ SplitRoleLine texts) :
    ∃ text ∈ texts, ∃ before m rest, text = before ++ (m ++ rest) ∧ AtLineStart before ∧
      m ∈ roleLines := by
  obtain ⟨before, line, after, hflat, hstart, hrole⟩ := h
  obtain ⟨rest, hline⟩ := heading_isPrefix line
  have hmem := heading_mem_roleLines hrole
  have hne : line ++ '\n' :: after ≠ [] := by simp
  rw [List.append_assoc] at hflat
  obtain ⟨earlier, a, b, later, htexts, hb, rfl, hb'⟩ := exists_text_of_flatten hflat hne
  have ha : AtLineStart a := hstart.of_append
  have hbstarts : b <+: line ++ '\n' :: after := by
    rw [hb']
    exact List.prefix_append _ _
  by_cases hlen : (heading line).length ≤ b.length
  · -- the heading stands in the text in which it begins
    have hstarts := (heading_isPrefix line).trans (List.prefix_append line ('\n' :: after))
    obtain ⟨rest', rfl⟩ := List.prefix_of_prefix_length_le hstarts hbstarts hlen
    exact ⟨a ++ (heading line ++ rest'), by simp [htexts], a, heading line, rest', rfl, ha, hmem⟩
  · exfalso
    have hbline : b.length ≤ line.length := by
      have hle := (heading_isPrefix line).length_le
      omega
    obtain ⟨right, rfl⟩ :=
      List.prefix_of_prefix_length_le hbstarts (List.prefix_append line ('\n' :: after)) hbline
    rw [List.append_assoc, List.append_cancel_left_eq] at hb'
    apply hsplit
    exact ⟨earlier ++ [a ++ b], later, earlier.flatten ++ a, b, right, after, by simp [htexts],
      by simp, hb'.symm, hstart, hrole, hb, by omega⟩

theorem stringIn_str (s : String) : StringIn s.toList (.str s) := by
  rw [StringIn, String.ofList_toList]

theorem stringIn_of_getKey {key : String} {v w : Json} (h : getKey key v = some w)
    (hs : StringIn s w) : StringIn s v := by
  cases v with
  | obj fields => exact hs.of_member (.field (Json.mem_of_getField h))
  | null => cases h
  | bool => cases h
  | int => cases h
  | float => cases h
  | str => cases h
  | arr => cases h

theorem stringIn_of_getStr {key s : String} {v : Json} (h : getStr key v = some s) :
    StringIn s.toList v := by
  obtain ⟨w, hw, hstr⟩ := Option.bind_eq_some_iff.mp h
  apply stringIn_of_getKey hw
  cases w with
  | str t =>
    cases hstr
    exact stringIn_str s
  | null => cases hstr
  | bool => cases hstr
  | int => cases hstr
  | float => cases hstr
  | arr => cases hstr
  | obj => cases hstr

theorem stringIn_of_mem_blockEvents {block : Json} (h : .text text ∈ blockEvents block) :
    StringIn text block := by
  rw [blockEvents] at h
  split at h
  · cases h
  · split_ifs at h
    · obtain ⟨s, hs, heq⟩ := Option.map_eq_some_iff.mp (Option.mem_toList.mp h)
      cases heq
      exact stringIn_of_getStr hs
    · simp at h

theorem stringIn_of_mem_contentEvents {content : Json} (h : .text text ∈ contentEvents content) :
    StringIn text content := by
  cases content with
  | str s =>
    simp only [contentEvents, List.mem_singleton, TextEvent.text.injEq] at h
    rw [h]
    exact stringIn_str s
  | arr blocks =>
    obtain ⟨block, hblock, hmem⟩ := List.mem_flatMap.mp h
    exact (stringIn_of_mem_blockEvents hmem).of_member (.item hblock)
  | null => simp [contentEvents] at h
  | bool => simp [contentEvents] at h
  | int => simp [contentEvents] at h
  | float => simp [contentEvents] at h
  | obj => simp [contentEvents] at h

theorem mem_of_mem_segments {read texts : List (List Char)} {events : List TextEvent}
    (h : texts ∈ segments read events) (htext : text ∈ texts) :
    text ∈ read ∨ .text text ∈ events := by
  induction events generalizing read with
  | nil =>
    rw [segments, List.mem_singleton] at h
    exact Or.inl (h ▸ htext)
  | cons event events ih =>
    cases event with
    | boundary =>
      rw [segments] at h
      rcases List.mem_cons.mp h with rfl | h
      · exact Or.inl htext
      · rcases ih h with hread | hmem
        · cases hread
        · exact Or.inr (List.mem_cons_of_mem _ hmem)
    | text first =>
      rcases ih h with hread | hmem
      · rcases List.mem_append.mp hread with hread | hfirst
        · exact Or.inl hread
        · rw [List.mem_singleton.mp hfirst]
          exact Or.inr List.mem_cons_self
      · exact Or.inr (List.mem_cons_of_mem _ hmem)

theorem stringIn_of_mem_blockThinking {policy : ThinkingPolicy}
    (hpolicy : policy.inspectAuthenticatedThinking = false) {block : Json}
    (h : text ∈ blockThinking policy block) : StringIn text block := by
  rw [blockThinking, hpolicy] at h
  split_ifs at h with h1 h2 h3
  · exact h3.elim
  · cases h
  · obtain ⟨s, hs, rfl⟩ := Option.map_eq_some_iff.mp (Option.mem_toList.mp h)
    exact stringIn_of_getStr hs
  · cases h

theorem stringIn_of_mem_contentThinking {policy : ThinkingPolicy}
    (hpolicy : policy.inspectAuthenticatedThinking = false) {content : Json}
    (h : text ∈ contentThinking policy content) : StringIn text content := by
  cases content with
  | arr blocks =>
    obtain ⟨block, hblock, hmem⟩ := List.mem_flatMap.mp h
    exact (stringIn_of_mem_blockThinking hpolicy hmem).of_member (.item hblock)
  | str => cases h
  | null => cases h
  | bool => cases h
  | int => cases h
  | float => cases h
  | obj => cases h

theorem stringIn_of_mem_projectedMessages {value : Json} {m : AnthropicMessage}
    (hm : m ∈ projectedMessages value) (hs : StringIn s m.content) : StringIn s value := by
  obtain ⟨message, hmessage, rfl⟩ := List.mem_map.mp hm
  have hmem : StringIn s message := by
    dsimp only at hs
    cases hcontent : getKey "content" message with
    | none =>
      rw [hcontent] at hs
      exact absurd hs (not_stringIn_of_isPlain rfl s)
    | some content =>
      rw [hcontent] at hs
      exact stringIn_of_getKey hcontent hs
  rw [arrayAt] at hmessage
  cases hmessages : getKey "messages" value with
  | none => simp [hmessages] at hmessage
  | some w =>
    rw [hmessages] at hmessage
    apply stringIn_of_getKey hmessages
    cases w with
    | arr items => exact hmem.of_member (.item hmessage)
    | null => cases hmessage
    | bool => cases hmessage
    | int => cases hmessage
    | float => cases hmessage
    | str => cases hmessage
    | obj => cases hmessage

def HasSplitRoleLine (value : Json) : Prop :=
  ∃ contents, IsAssistantRun (projectedMessages value) contents ∧
    ∃ texts ∈ runSegments contents, SplitRoleLine texts

/-- What the raw path takes for granted when both prefilters reject a body. -/
def SkippedBodyIsClean (sha256 : String → Digest) (text : List Char) (value : Json) : Prop :=
  rawBodyMayContainTranscriptMarker (utf8Bytes text) = false →
    rawBodyMayContainAuthenticatedReasoningMarker (utf8Bytes text) = false →
    (sanitizeAssistantMessageRuns sha256 (projectedMessages value)
      (collectKnownToolNamesFromValue value)).2.blocks = 0

def stringMember (name text s : List Char) : Member where
  before := []
  nameText := name
  after := []
  valueText := '"' :: (text ++ ['"'])
  name
  value := .str (String.ofList s)

def objectText (members : List Member) : List Char :=
  '\x7b' :: ([','].intercalate (members.map Member.text) ++ ['\x7d'])

def objectsMember (name : List Char) (objects : List (List Member)) : Member where
  before := []
  nameText := name
  after := []
  valueText := '[' :: ([','].intercalate (objects.map objectText) ++ [']'])
  name
  value := .arr (objects.map fun members => .obj (fieldsOf members))

def assistantMembers (text s : List Char) : List Member :=
  [stringMember "content".toList text s, stringMember "role".toList "assistant".toList "assistant".toList]

/-- A heading over two messages, and the tool that confirms it. -/
def splitBody : List Member :=
  [objectsMember "messages".toList
      [assistantMembers "user Con".toList "user Con".toList,
        assistantMembers "tinue\\n\\nbash: x".toList "tinue\n\nbash: x".toList],
    objectsMember "tools".toList [[stringMember "name".toList "bash".toList "bash".toList]]]

theorem stringText_literal (h : (s.all fun c => 0x20 ≤ c.toNat && c != '"' && c != '\\') = true) :
    StringText s s := by
  induction s with
  | nil => exact .nil
  | cons c s ih =>
    simp only [List.all_cons, Bool.and_eq_true, decide_eq_true_eq, bne_iff_ne] at h
    obtain ⟨⟨⟨hspace, hquote⟩, hslash⟩, h⟩ := h
    exact .cons (.literal hspace hquote hslash) (ih h)

theorem StringText.append {text s text' s' : List Char} (h : StringText text s)
    (h' : StringText text' s') : StringText (text ++ text') (s ++ s') := by
  induction h with
  | nil => exact h'
  | cons hc _ ih =>
    rw [List.append_assoc]
    exact .cons hc ih

/-- A member without space around its name. -/
structure IsMember (m : Member) : Prop where
  before : m.before = []
  after : m.after = []
  name : StringText m.nameText m.name
  value : ValueText m.valueText m.value

theorem valueText_objectText {members : List Member} (hne : members ≠ [])
    (h : ∀ m ∈ members, IsMember m) : ValueText (objectText members) (.obj (fieldsOf members)) := by
  apply ValueText.object hne
  · intro m hm
    obtain ⟨hbefore, hafter, hname, -⟩ := h m hm
    rw [hbefore, hafter]
    exact ⟨fun _ hc => (nomatch hc), fun _ hc => (nomatch hc), hname⟩
  · exact fun m hm => (h m hm).value

theorem isMember_stringMember {name text s : List Char} (hname : StringText name name)
    (htext : StringText text s) : IsMember (stringMember name text s) :=
  ⟨rfl, rfl, hname, .string htext⟩

theorem isMember_objectsMember {name : List Char} {objects : List (List Member)}
    (hname : StringText name name) (hne : objects ≠ [])
    (h : ∀ members ∈ objects, members ≠ [] ∧ ∀ m ∈ members, IsMember m) :
    IsMember (objectsMember name objects) := by
  refine ⟨rfl, rfl, hname, ?_⟩
  have hitems : ∀ item ∈ objects.map fun members => (objectText members, Json.obj (fieldsOf members)),
      ValueText item.1 item.2 := by
    intro item hitem
    obtain ⟨members, hmembers, rfl⟩ := List.mem_map.mp hitem
    exact valueText_objectText (h members hmembers).1 (h members hmembers).2
  have harray := ValueText.array (by simpa using hne) hitems
  rw [List.map_map, List.map_map] at harray
  exact harray

theorem isMember_assistantMembers (h : StringText text s) :
    ∀ m ∈ assistantMembers text s, IsMember m := by
  intro m hm
  rcases List.mem_cons.mp hm with rfl | hm
  · exact isMember_stringMember (stringText_literal (by decide)) h
  · rw [List.mem_singleton.mp hm]
    exact isMember_stringMember (stringText_literal (by decide)) (stringText_literal (by decide))

theorem valueText_splitBody : ValueText (objectText splitBody) (.obj (fieldsOf splitBody)) := by
  have hescaped : StringText "tinue\\n\\nbash: x".toList "tinue\n\nbash: x".toList := by
    have hnewline : StringText ['\\', 'n'] ['\n'] := .cons (.escape rfl) .nil
    have htinue : StringText "tinue".toList "tinue".toList := stringText_literal (by decide)
    have hbash : StringText "bash: x".toList "bash: x".toList := stringText_literal (by decide)
    exact StringText.append htinue (StringText.append hnewline (StringText.append hnewline hbash))
  apply valueText_objectText (List.cons_ne_nil _ _)
  intro m hm
  rcases List.mem_cons.mp hm with rfl | hm
  · apply isMember_objectsMember (stringText_literal (by decide)) (List.cons_ne_nil _ _)
    intro members hmembers
    rcases List.mem_cons.mp hmembers with rfl | hmembers
    · exact ⟨List.cons_ne_nil _ _, isMember_assistantMembers (stringText_literal (by decide))⟩
    · rw [List.mem_singleton.mp hmembers]
      exact ⟨List.cons_ne_nil _ _, isMember_assistantMembers hescaped⟩
  · rw [List.mem_singleton.mp hm]
    apply isMember_objectsMember (stringText_literal (by decide)) (List.cons_ne_nil _ _)
    intro members hmembers
    rw [List.mem_singleton.mp hmembers]
    refine ⟨List.cons_ne_nil _ _, fun m hm => ?_⟩
    rw [List.mem_singleton.mp hm]
    exact isMember_stringMember (stringText_literal (by decide)) (stringText_literal (by decide))

def plainBody : List Member :=
  [objectsMember "messages".toList [assistantMembers "Hello".toList "Hello".toList]]

theorem valueText_plainBody : ValueText (objectText plainBody) (.obj (fieldsOf plainBody)) := by
  apply valueText_objectText (List.cons_ne_nil _ _)
  intro m hm
  rw [List.mem_singleton.mp hm]
  apply isMember_objectsMember (stringText_literal (by decide)) (List.cons_ne_nil _ _)
  intro members hmembers
  rw [List.mem_singleton.mp hmembers]
  exact ⟨List.cons_ne_nil _ _, isMember_assistantMembers (stringText_literal (by decide))⟩

theorem SplitRoleLine.newline_mem (h : SplitRoleLine texts) : '\n' ∈ texts.flatten := by
  obtain ⟨earlier, later, before, left, right, after, rfl, -, hlater, -⟩ := h
  rw [List.flatten_append, hlater]
  simp

theorem not_hasSplitRoleLine_plainBody : ¬ HasSplitRoleLine (.obj (fieldsOf plainBody)) := by
  rintro ⟨contents, ⟨before, run, after, hmessages, rfl, hrun, -⟩, texts, htexts, hsplit⟩
  have hcontents : run.map AnthropicMessage.content = [.str "Hello"] := by
    have hone : (projectedMessages (.obj (fieldsOf plainBody))).map AnthropicMessage.content = [.str "Hello"] := by
      rfl
    rw [hmessages] at hone
    simp only [List.map_append, List.append_assoc] at hone
    rcases before with _ | ⟨m, before⟩
    · cases run with
      | nil => exact absurd rfl hrun
      | cons m run =>
        simp at hone ⊢
        exact ⟨hone.1, hone.2.1⟩
    · simp at hone
      exact absurd hone.2.2.1 hrun
  rw [hcontents] at htexts
  have hseg : runSegments [.str "Hello"] = [["Hello".toList]] := rfl
  rw [hseg, List.mem_singleton] at htexts
  subst htexts
  have h := hsplit.newline_mem
  revert h
  decide

end KiroProxy.TranscriptSanitizer
