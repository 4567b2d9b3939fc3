import KiroProxy.PayloadGuard.Repair

/-!
# Exact pairs

`Paired` says that the ids of the calls of each assistant turn are the ids of the results in the
turn after it, and that there are no other results. What each pass keeps and adds is stated for
lists of turns, and `repaired_repairRequest` puts the passes together. Of what is repaired, a second
repair changes nothing.
-/

namespace KiroProxy.PayloadGuard

def Message.toolUseIds : Message → List String
  | .user _ => []
  | .assistant turn => turn.ids

def toolUseIds (history : List Message) : List String := history.flatMap Message.toolUseIds

def EachUser (P : List ToolResult → Prop) (history : List Message) : Prop :=
  ∀ user, .user user ∈ history → P user.toolResults

def EachAssistant (P : Option (List ToolUseEntry) → Prop) (history : List Message) : Prop :=
  ∀ assistant, .assistant assistant ∈ history → P assistant.toolUses

/-- The results of each turn are those of the calls of the turn before. -/
def Paired (calls : List String) : List Message → List ToolResult → Prop
  | [], current => (resultIds current).Perm calls
  | .user user :: rest, current => (resultIds user.toolResults).Perm calls ∧ Paired [] rest current
  | .assistant assistant :: rest, current => calls = [] ∧ Paired assistant.ids rest current

structure Distinct (ids : List String) : Prop where
  notBlank : ∀ id ∈ ids, isBlankText id = false
  nodup : (ids.map trim).Nodup

theorem Distinct.sublist {ids ids' : List String} (h : Distinct ids) (hsub : ids'.Sublist ids) :
    Distinct ids' :=
  ⟨fun id hid => h.notBlank id (hsub.subset hid), h.nodup.sublist (hsub.map trim)⟩

theorem Distinct.ids_nodup {ids : List String} (h : Distinct ids) : ids.Nodup :=
  List.Nodup.of_map trim h.nodup

def Normalized (results : List ToolResult) : Prop :=
  ∀ result ∈ results, toolResultHasNonEmptyContent result = true

structure Repaired (request : KiroRequest) : Prop where
  history : EachUser Normalized request.history
  current : Normalized request.current.toolResults
  /-- Lists of calls are dropped where they are empty. -/
  strict : EachAssistant (· ≠ some []) request.history
  distinct : Distinct (toolUseIds request.history)
  paired : Paired [] request.history request.current.toolResults

section Fresh

variable {originalId : String} {seen : Finset String} {idx : ℕ}

theorem duplicateToolUseId_injective (originalId : String) (idx : ℕ) :
    Function.Injective (duplicateToolUseId originalId idx) := by
  intro m n h
  have hdigits : toString m = toString n := by
    rw [← String.toList_inj] at h ⊢
    unfold duplicateToolUseId at h
    simpa only [String.toList_append, List.append_cancel_left_eq] using h
  have hlist := congrArg String.toList hdigits
  rw [Nat.toString_eq_repr, Nat.toString_eq_repr, Nat.toList_repr, Nat.toList_repr] at hlist
  rw [← Nat.ofDigitChars_ten_toDigits (n := m), hlist, Nat.ofDigitChars_ten_toDigits]

theorem findUnseen_not_mem {fuel candidateIndex : ℕ}
    (hpassed : ∃ passed : Finset ℕ, (∀ n ∈ passed, n < candidateIndex ∧
      duplicateToolUseId originalId idx n ∈ seen) ∧ passed.card + fuel = seen.card) :
    findUnseen originalId seen idx fuel candidateIndex ∉ seen := by
  obtain ⟨passed, hpassed, hcard⟩ := hpassed
  induction fuel generalizing candidateIndex passed with
  | zero =>
    intro hmem
    have hsub : (insert candidateIndex passed).image (duplicateToolUseId originalId idx) ⊆ seen := by
      intro id hid
      obtain ⟨n, hn, rfl⟩ := Finset.mem_image.mp hid
      rcases Finset.mem_insert.mp hn with rfl | hn
      · exact hmem
      · exact (hpassed n hn).2
    have hle := Finset.card_le_card hsub
    rw [Finset.card_image_of_injective _ (duplicateToolUseId_injective originalId idx),
      Finset.card_insert_of_notMem fun hin => lt_irrefl _ (hpassed _ hin).1] at hle
    omega
  | succ fuel ih =>
    rw [findUnseen]
    split_ifs with hcandidate
    · refine ih (insert candidateIndex passed) ?_ ?_
      · intro n hn
        rcases Finset.mem_insert.mp hn with rfl | hn
        · exact ⟨Nat.lt_succ_self _, hcandidate⟩
        · exact ⟨(hpassed n hn).1.trans (Nat.lt_succ_self _), (hpassed n hn).2⟩
      · rw [Finset.card_insert_of_notMem fun hin => lt_irrefl _ (hpassed _ hin).1]
        omega
    · exact hcandidate

theorem makeUniqueDuplicateToolUseId_not_mem (originalId : String) (seen : Finset String)
    (idx : ℕ) : makeUniqueDuplicateToolUseId originalId seen idx ∉ seen :=
  findUnseen_not_mem ⟨∅, by simp, by simp⟩

theorem exists_findUnseen_eq (fuel candidateIndex : ℕ) : ∃ n,
    findUnseen originalId seen idx fuel candidateIndex = duplicateToolUseId originalId idx n := by
  induction fuel generalizing candidateIndex with
  | zero => exact ⟨candidateIndex, rfl⟩
  | succ fuel ih =>
    rw [findUnseen]
    split_ifs
    · exact ih (candidateIndex + 1)
    · exact ⟨candidateIndex, rfl⟩

theorem isWhitespace_of_isDigit {c : Char} (h : c.isDigit = true) : isWhitespace c = false := by
  have halnum : c.isAlphanum = true := by rw [Char.isAlphanum, h, Bool.or_true]
  revert h
  refine of_ascii (P := fun c => c.isDigit = true → isWhitespace c = false) ?_
    (lt_of_isAlphanum halnum)
  decide

theorem toList_toString_ne_nil (n : ℕ) : (toString n).toList ≠ [] := by
  rw [Nat.toString_eq_repr, Nat.toList_repr]
  exact Nat.toDigits_ne_nil

theorem duplicateToolUseId_ne_empty (originalId : String) (idx candidateIndex : ℕ) :
    duplicateToolUseId originalId idx candidateIndex ≠ "" := by
  intro hempty
  have hnil := congrArg String.toList hempty
  rw [duplicateToolUseId, String.toList_append] at hnil
  exact toList_toString_ne_nil _ (List.append_eq_nil_iff.mp hnil).2

theorem trim_duplicateToolUseId {id : String} (hid : trim id ≠ "") (idx candidateIndex : ℕ) :
    trim (duplicateToolUseId (trim id) idx candidateIndex) =
      duplicateToolUseId (trim id) idx candidateIndex := by
  have hdigits := toList_toString_ne_nil candidateIndex
  have happend : duplicateToolUseId (trim id) idx candidateIndex =
      trim id ++ ("__dup" ++ toString idx ++ "_" ++ toString candidateIndex) := by
    rw [duplicateToolUseId, ← String.toList_inj]
    simp only [String.toList_append, List.append_assoc]
  rw [happend]
  refine trim_trim_append hid ?_ ?_
  · intro hempty
    have hnil := congrArg String.toList hempty
    rw [String.toList_append] at hnil
    exact hdigits (List.append_eq_nil_iff.mp hnil).2
  · intro c hc
    rw [String.toList_append, List.getLast?_append_of_ne_nil _ hdigits,
      Nat.toString_eq_repr, Nat.toList_repr] at hc
    exact isWhitespace_of_isDigit
      (Nat.isDigit_of_mem_toDigits (by decide) (by decide) (List.mem_of_getLast? hc))

theorem trim_makeUniqueDuplicateToolUseId {id : String} (hid : trim id ≠ "") (seen : Finset String)
    (idx : ℕ) : makeUniqueDuplicateToolUseId (trim id) seen idx ≠ "" ∧
      trim (makeUniqueDuplicateToolUseId (trim id) seen idx) =
        makeUniqueDuplicateToolUseId (trim id) seen idx := by
  obtain ⟨n, hn⟩ : ∃ n, makeUniqueDuplicateToolUseId (trim id) seen idx =
      duplicateToolUseId (trim id) idx n := exists_findUnseen_eq seen.card 1
  rw [hn]
  exact ⟨duplicateToolUseId_ne_empty _ _ _, trim_duplicateToolUseId hid idx n⟩

end Fresh

section Turns

variable {P Q : List ToolResult → Prop} {R S : Option (List ToolUseEntry) → Prop}
variable {history rest : List Message} {user : UserMessage} {assistant : AssistantMessage}

@[simp] theorem toolUseIds_nil : toolUseIds [] = [] := rfl

@[simp] theorem toolUseIds_user : toolUseIds (.user user :: rest) = toolUseIds rest := rfl

@[simp] theorem toolUseIds_assistant :
    toolUseIds (.assistant assistant :: rest) = assistant.ids ++ toolUseIds rest := rfl

@[simp] theorem eachUser_nil : EachUser P [] := fun _ hmem => (by cases hmem)

@[simp] theorem eachUser_user :
    EachUser P (.user user :: rest) ↔ P user.toolResults ∧ EachUser P rest := by
  simp [EachUser]

@[simp] theorem eachUser_assistant :
    EachUser P (.assistant assistant :: rest) ↔ EachUser P rest := by
  simp [EachUser]

@[simp] theorem eachAssistant_nil : EachAssistant R [] := fun _ hmem => (by cases hmem)

@[simp] theorem eachAssistant_user :
    EachAssistant R (.user user :: rest) ↔ EachAssistant R rest := by
  simp [EachAssistant]

@[simp] theorem eachAssistant_assistant :
    EachAssistant R (.assistant assistant :: rest) ↔
      R assistant.toolUses ∧ EachAssistant R rest := by
  simp [EachAssistant]

variable {pass : List ToolResult → List ToolResult × ℕ}

theorem toolUseIds_onUserResults (pass : List ToolResult → List ToolResult × ℕ)
    (history : List Message) : toolUseIds (onUserResults pass history).1 = toolUseIds history := by
  induction history with
  | nil => rfl
  | cons message rest ih =>
    cases message with
    | user user => exact ih
    | assistant assistant => exact congrArg (assistant.ids ++ ·) ih

theorem EachUser.onUserResults (h : EachUser P history)
    (hpass : ∀ results, P results → Q (pass results).1) :
    EachUser Q (onUserResults pass history).1 := by
  induction history with
  | nil => exact eachUser_nil
  | cons message rest ih =>
    cases message with
    | user user =>
      obtain ⟨hturn, hrest⟩ := eachUser_user.mp h
      exact eachUser_user.mpr ⟨hpass _ hturn, ih hrest⟩
    | assistant assistant => exact eachUser_assistant.mpr (ih (eachUser_assistant.mp h))

theorem onUserResults_eq_self (h : EachUser (fun results => pass results = (results, 0)) history) :
    onUserResults pass history = (history, 0) := by
  induction history with
  | nil => rfl
  | cons message rest ih =>
    cases message with
    | user user =>
      obtain ⟨hturn, hrest⟩ := eachUser_user.mp h
      rw [onUserResults, hturn, ih hrest]
    | assistant assistant => rw [onUserResults, ih (eachUser_assistant.mp h)]

variable {pass' : List Message → Option (List ToolUseEntry) → Option (List ToolUseEntry) × ℕ}

theorem EachUser.onToolUses (h : EachUser P history)
    (pass : List Message → Option (List ToolUseEntry) → Option (List ToolUseEntry) × ℕ) :
    EachUser P (onToolUses pass history).1 := by
  induction history with
  | nil => exact h
  | cons message rest ih =>
    cases message with
    | user user =>
      obtain ⟨hturn, hrest⟩ := eachUser_user.mp h
      exact eachUser_user.mpr ⟨hturn, ih hrest⟩
    | assistant assistant => exact eachUser_assistant.mpr (ih (eachUser_assistant.mp h))

theorem EachAssistant.onToolUses (history : List Message)
    (hpass : ∀ rest toolUses, R (pass' rest toolUses).1) :
    EachAssistant R (onToolUses pass' history).1 := by
  induction history with
  | nil => exact eachAssistant_nil
  | cons message rest ih =>
    cases message with
    | user user => exact eachAssistant_user.mpr ih
    | assistant assistant => exact eachAssistant_assistant.mpr ⟨hpass _ _, ih⟩

theorem onToolUses_eq_self (h : EachAssistant (fun toolUses =>
    ∀ rest, pass' rest toolUses = (toolUses, 0)) history) :
    onToolUses pass' history = (history, 0) := by
  induction history with
  | nil => rfl
  | cons message rest ih =>
    cases message with
    | user user => rw [PayloadGuard.onToolUses, ih (eachAssistant_user.mp h)]
    | assistant assistant =>
      obtain ⟨hturn, hrest⟩ := eachAssistant_assistant.mp h
      rw [PayloadGuard.onToolUses, hturn, ih hrest]

theorem mem_toolUseIds_onToolUses {T : String → Prop} (history : List Message)
    (hpass : ∀ rest toolUses, ∀ id ∈ useIds ((pass' rest toolUses).1.getD []), T id) :
    ∀ id ∈ toolUseIds (onToolUses pass' history).1, T id := by
  induction history with
  | nil => simp [PayloadGuard.onToolUses]
  | cons message rest ih =>
    cases message with
    | user user => exact ih
    | assistant assistant =>
      intro id hid
      rcases List.mem_append.mp hid with hid | hid
      · exact hpass _ _ id hid
      · exact ih id hid

theorem toolUseIds_onToolUses_sublist (history : List Message) (hpass : ∀ rest toolUses,
    (useIds ((pass' rest toolUses).1.getD [])).Sublist (useIds (toolUses.getD []))) :
    (toolUseIds (onToolUses pass' history).1).Sublist (toolUseIds history) := by
  induction history with
  | nil => exact List.Sublist.refl _
  | cons message rest ih =>
    cases message with
    | user user => exact ih
    | assistant assistant => exact (hpass _ _).append ih

end Turns

section Passes

variable {α : Type} {key : α → String}

theorem keepFirst_sublist (key : α → String) (seen : List String) (items : List α) :
    (keepFirst key seen items).Sublist items := by
  induction items generalizing seen with
  | nil => exact List.Sublist.refl _
  | cons item items ih =>
    rw [keepFirst]
    split_ifs
    · exact (ih seen).cons item
    · exact (ih _).cons_cons item

theorem nodup_keys_keepFirst (key : α → String) (seen : List String) (items : List α) :
    ((keepFirst key seen items).map key).Nodup ∧
      ∀ item ∈ keepFirst key seen items, key item ∉ seen := by
  induction items generalizing seen with
  | nil => exact ⟨List.nodup_nil, fun _ hmem => (by cases hmem)⟩
  | cons item items ih =>
    rw [keepFirst]
    split_ifs with hseen
    · exact ih seen
    · obtain ⟨hnodup, hfresh⟩ := ih (key item :: seen)
      refine ⟨List.nodup_cons.mpr ⟨fun hmem => ?_, hnodup⟩, fun other hother => ?_⟩
      · obtain ⟨other, hother, heq⟩ := List.mem_map.mp hmem
        exact hfresh other hother (heq ▸ List.mem_cons_self)
      · rcases List.mem_cons.mp hother with rfl | hother
        · exact hseen
        · exact fun hin => hfresh other hother (List.mem_cons_of_mem _ hin)

theorem keepFirst_eq_self {seen : List String} {items : List α}
    (hnodup : (items.map key).Nodup) (hfresh : ∀ item ∈ items, key item ∉ seen) :
    keepFirst key seen items = items := by
  induction items generalizing seen with
  | nil => rfl
  | cons item items ih =>
    rw [List.map_cons, List.nodup_cons] at hnodup
    obtain ⟨hitem, hnodup⟩ := hnodup
    rw [keepFirst, if_neg (hfresh item List.mem_cons_self), ih hnodup]
    intro other hother hmem
    rcases List.mem_cons.mp hmem with heq | hmem
    · exact hitem (heq ▸ List.mem_map_of_mem hother)
    · exact hfresh other (List.mem_cons_of_mem _ hother) hmem

theorem normalized_normalizeToolResultsContent (results : List ToolResult) :
    Normalized (normalizeToolResultsContent results).1 := by
  intro result hmem
  obtain ⟨original, -, rfl⟩ := List.mem_map.mp hmem
  unfold normalizeToolResult
  split_ifs with hcontent
  · exact hcontent
  · change [[("text", Json.str emptyToolResultContentPlaceholder)]].any toolResultItemHasContent = true
    decide

theorem normalizeToolResultsContent_eq_self {results : List ToolResult} (h : Normalized results) :
    normalizeToolResultsContent results = (results, 0) := by
  have hmap : results.map normalizeToolResult = results := by
    conv_rhs => rw [← List.map_id results]
    refine List.map_congr_left fun result hmem => ?_
    rw [normalizeToolResult, if_pos (h result hmem), id]
  have hcount : results.countP (fun result => !toolResultHasNonEmptyContent result) = 0 := by
    rw [List.countP_eq_zero]
    intro result hmem
    rw [h result hmem]
    decide
  rw [normalizeToolResultsContent, hmap, hcount]

theorem Normalized.sublist {results results' : List ToolResult} (h : Normalized results)
    (hsub : results'.Sublist results) : Normalized results' :=
  fun result hmem => h result (hsub.subset hmem)

theorem dedupeToolResultsKeepFirst_sublist (results : List ToolResult) :
    (dedupeToolResultsKeepFirst results).1.Sublist results := by
  unfold dedupeToolResultsKeepFirst
  split_ifs
  · exact List.Sublist.refl _
  · exact keepFirst_sublist _ _ _

theorem nodup_dedupeToolResultsKeepFirst (results : List ToolResult) :
    (resultIds (dedupeToolResultsKeepFirst results).1).Nodup := by
  unfold dedupeToolResultsKeepFirst
  split_ifs with hlength
  · match results, hlength with
    | [], _ => exact List.nodup_nil
    | [result], _ => exact List.nodup_singleton _
  · exact (nodup_keys_keepFirst _ _ _).1

theorem dedupeToolResultsKeepFirst_eq_self {results : List ToolResult}
    (h : (resultIds results).Nodup) : dedupeToolResultsKeepFirst results = (results, 0) := by
  unfold dedupeToolResultsKeepFirst
  split_ifs
  · rfl
  · dsimp only
    rw [keepFirst_eq_self h fun _ _ hmem => (by cases hmem), Nat.sub_self]

variable {retain : List ToolUseEntry → List ToolUseEntry}

theorem getD_retainToolUses (toolUses : Option (List ToolUseEntry)) (hnil : retain [] = []) :
    (retainToolUses retain toolUses).1.getD [] = retain (toolUses.getD []) := by
  cases toolUses with
  | none => exact hnil.symm
  | some toolUses =>
    rw [retainToolUses]
    dsimp only
    split_ifs with hempty
    · exact (List.isEmpty_iff.mp hempty).symm
    · rfl

theorem retainToolUses_ne (retain : List ToolUseEntry → List ToolUseEntry)
    (toolUses : Option (List ToolUseEntry)) : (retainToolUses retain toolUses).1 ≠ some [] := by
  cases toolUses with
  | none => exact nofun
  | some toolUses =>
    rw [retainToolUses]
    dsimp only
    split_ifs with hempty
    · exact nofun
    · intro heq
      rw [Option.some.inj heq] at hempty
      exact hempty rfl

theorem retainToolUses_eq_self {toolUses : Option (List ToolUseEntry)} (hne : toolUses ≠ some [])
    (hretain : retain (toolUses.getD []) = toolUses.getD []) :
    retainToolUses retain toolUses = (toolUses, 0) := by
  cases toolUses with
  | none => rfl
  | some toolUses =>
    rw [Option.getD_some] at hretain
    rw [retainToolUses, hretain, Nat.sub_self, if_neg]
    intro hempty
    rw [List.isEmpty_iff.mp hempty] at hne
    exact hne rfl

end Passes

section Renaming

variable {seen seen' seen'' : Finset String} {ids ids' : List String} {idx : ℕ}

theorem isBlankText_eq_false_iff {id : String} : isBlankText id = false ↔ trim id ≠ "" := by
  rw [Ne, trim_eq_empty_iff, isBlankText, Bool.not_eq_true]

/-- The ids of some calls, when `seen` was seen before them and `seen'` after them. -/
structure NewIds (seen seen' : Finset String) (ids : List String) : Prop where
  subset : seen ⊆ seen'
  nodup : (ids.map trim).Nodup
  new : ∀ id ∈ ids, trim id ≠ "" ∧ trim id ∉ seen ∧ trim id ∈ seen'

theorem NewIds.nil (seen : Finset String) : NewIds seen seen [] :=
  ⟨subset_rfl, List.nodup_nil, fun _ hmem => (by cases hmem)⟩

theorem NewIds.append (h : NewIds seen seen' ids) (h' : NewIds seen' seen'' ids') :
    NewIds seen seen'' (ids ++ ids') where
  subset := h.subset.trans h'.subset
  nodup := by
    rw [List.map_append]
    refine List.Nodup.append h.nodup h'.nodup fun id hid hid' => ?_
    obtain ⟨before, hbefore, rfl⟩ := List.mem_map.mp hid
    obtain ⟨after, hafter, heq⟩ := List.mem_map.mp hid'
    apply (h'.new after hafter).2.1
    rw [heq]
    exact (h.new before hbefore).2.2
  new id hid := by
    rcases List.mem_append.mp hid with hid | hid
    · obtain ⟨hne, hnot, hin⟩ := h.new id hid
      exact ⟨hne, hnot, h'.subset hin⟩
    · obtain ⟨hne, hnot, hin⟩ := h'.new id hid
      exact ⟨hne, fun hseen => hnot (h.subset hseen), hin⟩

theorem NewIds.singleton {id : String} (hne : trim id ≠ "") (hnot : trim id ∉ seen) :
    NewIds seen (insert (trim id) seen) [id] where
  subset := Finset.subset_insert _ _
  nodup := List.nodup_singleton _
  new other hother := by
    rw [List.mem_singleton.mp hother]
    exact ⟨hne, hnot, Finset.mem_insert_self _ _⟩

variable {toolUses : List ToolUseEntry} {history : List Message}

theorem renameToolUses_newIds (idx : ℕ) (seen : Finset String) (results : List ToolResult)
    (hids : ∀ id ∈ useIds toolUses, trim id ≠ "") :
    NewIds seen (renameToolUses idx seen results toolUses).seen
      (useIds (renameToolUses idx seen results toolUses).toolUses) := by
  induction toolUses generalizing seen results with
  | nil => exact NewIds.nil seen
  | cons toolUse toolUses ih =>
    have hid : trim toolUse.toolUseId ≠ "" := hids _ List.mem_cons_self
    have hrest : ∀ id ∈ useIds toolUses, trim id ≠ "" :=
      fun id hmem => hids id (List.mem_cons_of_mem _ hmem)
    rw [renameToolUses, if_neg hid]
    by_cases hseen : trim toolUse.toolUseId ∉ seen
    · rw [if_pos hseen]
      exact (NewIds.singleton hid hseen).append (ih _ _ hrest)
    · rw [if_neg hseen]
      obtain ⟨hne, htrim⟩ := trim_makeUniqueDuplicateToolUseId hid seen idx
      have hnew := makeUniqueDuplicateToolUseId_not_mem (trim toolUse.toolUseId) seen idx
      have hfirst : NewIds seen
          (insert (trim (makeUniqueDuplicateToolUseId (trim toolUse.toolUseId) seen idx)) seen)
          [makeUniqueDuplicateToolUseId (trim toolUse.toolUseId) seen idx] :=
        NewIds.singleton (by rw [htrim]; exact hne) (by rw [htrim]; exact hnew)
      rw [htrim] at hfirst
      exact hfirst.append (ih _ _ hrest)

theorem renameToolUses_congr (idx : ℕ) (seen : Finset String) (results results' : List ToolResult)
    (toolUses : List ToolUseEntry) :
    (renameToolUses idx seen results toolUses).seen =
        (renameToolUses idx seen results' toolUses).seen ∧
      (renameToolUses idx seen results toolUses).toolUses =
        (renameToolUses idx seen results' toolUses).toolUses ∧
      (renameToolUses idx seen results toolUses).renamed =
        (renameToolUses idx seen results' toolUses).renamed := by
  induction toolUses generalizing seen results results' with
  | nil => exact ⟨rfl, rfl, rfl⟩
  | cons toolUse toolUses ih =>
    simp only [renameToolUses]
    split_ifs
    · obtain ⟨hseen, huses, hrenamed⟩ := ih seen results results'
      exact ⟨hseen, congrArg (toolUse :: ·) huses, hrenamed⟩
    · let newId := makeUniqueDuplicateToolUseId (trim toolUse.toolUseId) seen idx
      obtain ⟨hseen, huses, hrenamed⟩ := ih (insert newId seen)
        (renameMatchingToolResults (trim toolUse.toolUseId) newId results)
        (renameMatchingToolResults (trim toolUse.toolUseId) newId results')
      exact ⟨hseen, congrArg ({ toolUse with toolUseId := newId } :: ·) huses,
        congrArg (· + 1) hrenamed⟩
    · obtain ⟨hseen, huses, hrenamed⟩ := ih (insert (trim toolUse.toolUseId) seen) results results'
      exact ⟨hseen, congrArg (toolUse :: ·) huses, hrenamed⟩

/-- The renaming turn by turn, where `rename` is for the results of the turn before. -/
def renameTurns (idx : ℕ) (seen : Finset String) (rename : List ToolResult → List ToolResult) :
    List Message → List ToolResult → List Message × List ToolResult × ℕ
  | [], current => ([], rename current, 0)
  | .user user :: rest, current =>
    let (rest, current, renamed) := renameTurns (idx + 1) seen id rest current
    (.user { user with toolResults := rename user.toolResults } :: rest, current, renamed)
  | .assistant assistant :: rest, current =>
    let turn (results : List ToolResult) :=
      renameToolUses idx seen results (assistant.toolUses.getD [])
    let (rest, current, renamed) :=
      renameTurns (idx + 1) (turn []).seen (fun results => (turn results).results) rest current
    (.assistant { assistant with toolUses := assistant.toolUses.map fun _ => (turn []).toolUses } ::
      rest, current, (turn []).renamed + renamed)

theorem renameFrom_eq (idx : ℕ) (seen : Finset String) (current : List ToolResult)
    (history : List Message) :
    renameFrom idx seen current history = renameTurns idx seen id history current := by
  fun_induction renameFrom idx seen current history with
  | case1 idx seen => rfl
  | case2 idx seen user rest rest' current' renamed heq ih =>
    rw [renameTurns, ← ih, heq]
    rfl
  | case3 idx seen content reasoning rest rest' current' renamed heq ih =>
    have hrest : renameTurns (idx + 1) seen (fun results => results) rest current =
        (rest', current', renamed) := ih.symm.trans heq
    simp only [renameTurns, Option.getD_none, Option.map_none, renameToolUses, hrest, Nat.zero_add]
  | case4 idx seen content toolUses reasoning next =>
    obtain ⟨-, huses, hrenamed⟩ := renameToolUses_congr idx seen current [] toolUses
    simp only [renameTurns, Option.getD_some, Option.map_some, ← huses, ← hrenamed]
    rfl
  | case5 idx seen content toolUses reasoning user rest next rest' current' renamed heq ih =>
    obtain ⟨hseen, huses, hrenamed⟩ := renameToolUses_congr idx seen user.toolResults [] toolUses
    have hrest : renameTurns (idx + 1 + 1) (renameToolUses idx seen user.toolResults toolUses).seen
        id rest current = (rest', current', renamed) := ih.symm.trans heq
    simp only [renameTurns, Option.getD_some, Option.map_some, ← hseen, ← huses, ← hrenamed, hrest]
    rfl
  | case6 idx seen content toolUses reasoning assistant rest next rest' current' renamed heq ih =>
    have hrest : renameTurns (idx + 1) (renameToolUses idx seen [] toolUses).seen
        (fun results => (renameToolUses idx seen results toolUses).results)
        (.assistant assistant :: rest) current = (rest', current', renamed) := ih.symm.trans heq
    rw [renameTurns]
    simp only [Option.getD_some, Option.map_some, hrest]
    rfl

theorem ids_renamed (idx : ℕ) (seen : Finset String) (results : List ToolResult)
    (toolUses : Option (List ToolUseEntry)) :
    (toolUses.map fun _ => (renameToolUses idx seen results (toolUses.getD [])).toolUses).getD [] =
      (renameToolUses idx seen results (toolUses.getD [])).toolUses := by
  cases toolUses with
  | none => rfl
  | some toolUses => rfl

theorem renameTurns_newIds (idx : ℕ) (seen : Finset String)
    (rename : List ToolResult → List ToolResult) (current : List ToolResult)
    (hids : ∀ id ∈ toolUseIds history, trim id ≠ "") :
    ∃ seen', NewIds seen seen' (toolUseIds (renameTurns idx seen rename history current).1) := by
  induction history generalizing idx seen rename with
  | nil => exact ⟨seen, NewIds.nil seen⟩
  | cons message rest ih =>
    cases message with
    | user user => exact ih _ _ _ hids
    | assistant assistant =>
      have hturn := renameToolUses_newIds idx seen [] fun id hid =>
        hids id (List.mem_append_left _ hid)
      obtain ⟨seen', hrest⟩ := ih (idx + 1) _ _ fun id hid => hids id (List.mem_append_right _ hid)
      refine ⟨seen', ?_⟩
      rw [← ids_renamed] at hturn
      exact hturn.append hrest

theorem distinct_renameRepeatedToolUseIds (current : List ToolResult)
    (hids : ∀ id ∈ toolUseIds history, isBlankText id = false) :
    Distinct (toolUseIds (renameRepeatedToolUseIds history current).1) := by
  rw [renameRepeatedToolUseIds, renameFrom_eq]
  obtain ⟨seen', hnew⟩ := renameTurns_newIds 0 ∅ id current fun id hid =>
    isBlankText_eq_false_iff.mp (hids id hid)
  exact ⟨fun id hid => isBlankText_eq_false_iff.mpr (hnew.new id hid).1, hnew.nodup⟩

variable {P : List ToolResult → Prop}

theorem renameToolUses_results (hP : ∀ oldId newId results, P results →
    P (renameMatchingToolResults oldId newId results)) (idx : ℕ) (seen : Finset String)
    {results : List ToolResult} (hresults : P results) (toolUses : List ToolUseEntry) :
    P (renameToolUses idx seen results toolUses).results := by
  induction toolUses generalizing seen results with
  | nil => exact hresults
  | cons toolUse toolUses ih =>
    rw [renameToolUses]
    dsimp only
    split_ifs
    · exact ih _ hresults
    · exact ih _ (hP _ _ _ hresults)
    · exact ih _ hresults

theorem length_renameToolUses (idx : ℕ) (seen : Finset String) (results : List ToolResult)
    (toolUses : List ToolUseEntry) :
    (renameToolUses idx seen results toolUses).toolUses.length = toolUses.length := by
  induction toolUses generalizing seen results with
  | nil => rfl
  | cons toolUse toolUses ih =>
    rw [renameToolUses]
    dsimp only
    split_ifs
    · exact congrArg (· + 1) (ih _ _)
    · exact congrArg (· + 1) (ih _ _)
    · exact congrArg (· + 1) (ih _ _)

theorem some_renameToolUses_ne (idx : ℕ) (seen : Finset String) (results : List ToolResult)
    (h : some toolUses ≠ some []) :
    some (renameToolUses idx seen results toolUses).toolUses ≠ some [] := by
  intro heq
  have hlength := length_renameToolUses idx seen results toolUses
  rw [Option.some.inj heq] at hlength
  exact h (congrArg some (List.length_eq_zero_iff.mp hlength.symm))

theorem EachUser.renameTurns (hP : ∀ oldId newId results, P results →
    P (renameMatchingToolResults oldId newId results)) (idx : ℕ) (seen : Finset String)
    {rename : List ToolResult → List ToolResult}
    (hrename : ∀ results, P results → P (rename results)) {current : List ToolResult}
    (hcurrent : P current) (h : EachUser P history) :
    EachUser P (renameTurns idx seen rename history current).1 ∧
      P (renameTurns idx seen rename history current).2.1 := by
  induction history generalizing idx seen rename with
  | nil => exact ⟨eachUser_nil, hrename _ hcurrent⟩
  | cons message rest ih =>
    cases message with
    | user user =>
      obtain ⟨hturn, hrest⟩ := eachUser_user.mp h
      have hnext := @ih (idx + 1) seen id (fun _ hresults => hresults) hrest
      exact ⟨eachUser_user.mpr ⟨hrename _ hturn, hnext.1⟩, hnext.2⟩
    | assistant assistant =>
      have hnext := ih (idx + 1) (renameToolUses idx seen [] (assistant.toolUses.getD [])).seen
        (fun results hresults =>
          renameToolUses_results hP idx seen hresults (assistant.toolUses.getD []))
        (eachUser_assistant.mp h)
      exact ⟨eachUser_assistant.mpr hnext.1, hnext.2⟩

theorem EachAssistant.renameTurns (idx : ℕ) (seen : Finset String)
    (rename : List ToolResult → List ToolResult) (current : List ToolResult)
    (h : EachAssistant (· ≠ some []) history) :
    EachAssistant (· ≠ some []) (renameTurns idx seen rename history current).1 := by
  induction history generalizing idx seen rename with
  | nil => exact h
  | cons message rest ih =>
    cases message with
    | user user => exact eachAssistant_user.mpr (ih _ _ _ (eachAssistant_user.mp h))
    | assistant assistant =>
      obtain ⟨hturn, hrest⟩ := eachAssistant_assistant.mp h
      refine eachAssistant_assistant.mpr ⟨?_, ih _ _ _ hrest⟩
      cases huses : assistant.toolUses with
      | none => exact nofun
      | some toolUses => exact some_renameToolUses_ne _ _ _ (huses ▸ hturn)

theorem normalized_renameMatchingToolResults (oldId newId : String) (results : List ToolResult)
    (h : Normalized results) : Normalized (renameMatchingToolResults oldId newId results) := by
  intro result hmem
  obtain ⟨original, horiginal, rfl⟩ := List.mem_map.mp hmem
  have hcontent := h original horiginal
  split_ifs
  · exact hcontent
  · exact hcontent

theorem renameToolUses_eq_self (idx : ℕ) {seen : Finset String} (results : List ToolResult)
    (h : Distinct (useIds toolUses)) (hnot : ∀ id ∈ useIds toolUses, trim id ∉ seen) :
    renameToolUses idx seen results toolUses =
      ⟨seen ∪ ((useIds toolUses).map trim).toFinset, toolUses, results, 0⟩ := by
  induction toolUses generalizing seen with
  | nil =>
    rw [renameToolUses, useIds, List.map_nil, List.map_nil, List.toFinset_nil, Finset.union_empty]
  | cons toolUse toolUses ih =>
    have hid : trim toolUse.toolUseId ≠ "" :=
      isBlankText_eq_false_iff.mp (h.notBlank _ List.mem_cons_self)
    have hnodup := h.nodup
    rw [useIds, List.map_cons, List.map_cons, List.nodup_cons] at hnodup
    rw [renameToolUses, if_neg hid, if_pos (hnot _ List.mem_cons_self),
      ih (h.sublist (List.sublist_cons_self _ _))]
    · rw [useIds, useIds, List.map_cons, List.map_cons, List.toFinset_cons, Finset.insert_union,
        Finset.union_insert]
    · intro id hmem hseen
      rcases Finset.mem_insert.mp hseen with heq | hseen
      · exact hnodup.1 (heq ▸ List.mem_map_of_mem hmem)
      · exact hnot id (List.mem_cons_of_mem _ hmem) hseen

theorem renameTurns_eq_self (idx : ℕ) {seen : Finset String} (current : List ToolResult)
    (h : Distinct (toolUseIds history)) (hnot : ∀ id ∈ toolUseIds history, trim id ∉ seen) :
    renameTurns idx seen id history current = (history, current, 0) := by
  induction history generalizing idx seen with
  | nil => rfl
  | cons message rest ih =>
    cases message with
    | user user => rw [renameTurns, ih (idx + 1) h hnot]; rfl
    | assistant assistant =>
      have hturn (results : List ToolResult) := renameToolUses_eq_self idx results
        (h.sublist (List.sublist_append_left _ _)) fun id hid => hnot id (List.mem_append_left _ hid)
      -- The ids of the later turns are new to a turn and to what was seen before it.
      have hlater : ∀ id ∈ toolUseIds rest, trim id ∉ seen ∪ (assistant.ids.map trim).toFinset := by
        intro id hid hmem
        rcases Finset.mem_union.mp hmem with hmem | hmem
        · exact hnot id (List.mem_append_right _ hid) hmem
        · have hnodup := h.nodup
          rw [toolUseIds_assistant, List.map_append] at hnodup
          exact List.disjoint_of_nodup_append hnodup (List.mem_toFinset.mp hmem)
            (List.mem_map_of_mem hid)
      have hrest : renameTurns (idx + 1) (seen ∪ (assistant.ids.map trim).toFinset)
          (fun results => results) rest current = (rest, current, 0) :=
        ih (idx + 1) (h.sublist (List.sublist_append_right _ _)) hlater
      have huses : (assistant.toolUses.map fun _ => assistant.toolUses.getD []) =
          assistant.toolUses := by cases assistant.toolUses <;> rfl
      simp only [renameTurns, hturn, huses]
      rw [AssistantMessage.ids] at hrest
      rw [hrest, Nat.zero_add]

end Renaming

section Orphans

variable {P : List ToolResult → Prop} {R : Option (List ToolUseEntry) → Prop}
variable {calls : List String} {history : List Message} {current : List ToolResult}
variable {user : UserMessage}

/-- Each turn has at most one result of each call of the turn before, and no others. -/
def Within (calls : List String) : List Message → List ToolResult → Prop
  | [], current => (resultIds current).Nodup ∧ resultIds current ⊆ calls
  | .user user :: rest, current =>
    ((resultIds user.toolResults).Nodup ∧ resultIds user.toolResults ⊆ calls) ∧
      Within [] rest current
  | .assistant assistant :: rest, current => Within assistant.ids rest current

theorem toolResults_repairToolResults (validIds : List String) (user : UserMessage) :
    (repairToolResults validIds user).1.toolResults =
      user.toolResults.filter fun result => result.toolUseId ∈ validIds := by
  unfold repairToolResults
  split_ifs with hempty
  · rw [List.isEmpty_iff.mp hempty, List.filter_nil]
  · rfl

theorem repairToolResults_eq_self {validIds : List String}
    (h : resultIds user.toolResults ⊆ validIds) : repairToolResults validIds user = (user, 0) := by
  have hkept : (user.toolResults.filter fun result => result.toolUseId ∈ validIds) =
      user.toolResults := by
    rw [List.filter_eq_self]
    exact fun result hmem => decide_eq_true (h (List.mem_map_of_mem hmem))
  unfold repairToolResults
  split_ifs
  · rfl
  · dsimp only
    rw [hkept, Nat.sub_self, if_neg fun hmodified => hmodified.1 rfl]

theorem within_repairToolResults {results : List ToolResult} (validIds : List String)
    (hnodup : (resultIds user.toolResults).Nodup)
    (heq : (repairToolResults validIds user).1.toolResults = results) :
    (resultIds results).Nodup ∧ resultIds results ⊆ validIds := by
  rw [← heq, toolResults_repairToolResults]
  refine ⟨hnodup.sublist (List.filter_sublist.map _), fun id hid => ?_⟩
  obtain ⟨result, hresult, rfl⟩ := List.mem_map.mp hid
  exact of_decide_eq_true (List.mem_filter.mp hresult).2

theorem within_repairOrphansFrom (calls : List String)
    (h : EachUser (fun results => (resultIds results).Nodup) history)
    (hcurrent : (resultIds user.toolResults).Nodup) :
    Within calls (repairOrphansFrom calls history).1
      (repairToolResults (lastAssistantToolUseIds calls (repairOrphansFrom calls history).1)
        user).1.toolResults := by
  induction history generalizing calls with
  | nil => exact within_repairToolResults calls hcurrent rfl
  | cons message rest ih =>
    cases message with
    | user turn =>
      obtain ⟨hturn, hrest⟩ := eachUser_user.mp h
      exact ⟨within_repairToolResults calls hturn rfl, ih [] hrest⟩
    | assistant assistant => exact ih assistant.ids (eachUser_assistant.mp h)

theorem toolUseIds_repairOrphansFrom (calls : List String) (history : List Message) :
    toolUseIds (repairOrphansFrom calls history).1 = toolUseIds history := by
  induction history generalizing calls with
  | nil => rfl
  | cons message rest ih =>
    cases message with
    | user user => exact ih []
    | assistant assistant => exact congrArg (assistant.ids ++ ·) (ih assistant.ids)

theorem EachUser.repairOrphansFrom (hP : ∀ {results results' : List ToolResult}, P results →
    results'.Sublist results → P results') (calls : List String) (h : EachUser P history) :
    EachUser P (repairOrphansFrom calls history).1 := by
  induction history generalizing calls with
  | nil => exact h
  | cons message rest ih =>
    cases message with
    | user user =>
      obtain ⟨hturn, hrest⟩ := eachUser_user.mp h
      have hkept : P (repairToolResults calls user).1.toolResults := by
        rw [toolResults_repairToolResults]
        exact hP hturn List.filter_sublist
      exact eachUser_user.mpr ⟨hkept, ih [] hrest⟩
    | assistant assistant => exact eachUser_assistant.mpr (ih _ (eachUser_assistant.mp h))

theorem perm_filter_mem {ids ids' : List String} (hids : ids.Nodup) (hids' : ids'.Nodup)
    (hsub : ids ⊆ ids') : ids.Perm (ids'.filter fun id => id ∈ ids) := by
  rw [List.perm_ext_iff_of_nodup hids (hids'.filter _)]
  intro id
  rw [List.mem_filter, decide_eq_true_eq]
  exact ⟨fun hid => ⟨hsub hid, hid⟩, fun hid => hid.2⟩

theorem ids_removeUnpaired (assistant : AssistantMessage) (ids : List String) :
    useIds ((retainToolUses (fun toolUses => toolUses.filter fun toolUse => toolUse.toolUseId ∈ ids)
      assistant.toolUses).1.getD []) = assistant.ids.filter fun id => id ∈ ids := by
  rw [getD_retainToolUses _ List.filter_nil, AssistantMessage.ids, useIds, useIds, List.filter_map]
  rfl

theorem paired_removeUnpairedToolUses (hcalls : calls.Nodup) (hids : (toolUseIds history).Nodup)
    (h : Within calls history current) :
    Paired (calls.filter fun id => id ∈ nextToolResultIds current history)
      (removeUnpairedToolUses current history).1 current := by
  induction history generalizing calls with
  | nil => exact perm_filter_mem h.1 hcalls h.2
  | cons message rest ih =>
    cases message with
    | user user =>
      obtain ⟨⟨hnodup, hsub⟩, hrest⟩ := h
      exact ⟨perm_filter_mem hnodup hcalls hsub, ih List.nodup_nil hids hrest⟩
    | assistant assistant =>
      rw [toolUseIds_assistant] at hids
      obtain ⟨hturn, hrest, -⟩ := List.nodup_append.mp hids
      have hpaired := ih hturn hrest h
      rw [← ids_removeUnpaired] at hpaired
      have hnone : (calls.filter fun id =>
          id ∈ nextToolResultIds current (.assistant assistant :: rest)) = [] :=
        List.filter_eq_nil_iff.mpr fun id _ => by simp [nextToolResultIds]
      exact ⟨hnone, hpaired⟩

theorem toolUseIds_removeUnpairedToolUses_sublist (current : List ToolResult)
    (history : List Message) :
    (toolUseIds (removeUnpairedToolUses current history).1).Sublist (toolUseIds history) := by
  refine toolUseIds_onToolUses_sublist history fun rest toolUses => ?_
  rw [getD_retainToolUses _ List.filter_nil]
  exact List.filter_sublist.map _

theorem Paired.next_perm (h : Paired calls history current) :
    (nextToolResultIds current history).Perm calls := by
  match history, h with
  | [], h => exact h
  | .user user :: rest, h => exact h.1
  | .assistant assistant :: rest, h =>
    rw [h.1]
    exact List.Perm.refl _

theorem Paired.repairOrphansFrom (h : Paired calls history current) :
    repairOrphansFrom calls history = (history, 0) ∧
      resultIds current ⊆ lastAssistantToolUseIds calls history := by
  induction history generalizing calls with
  | nil => exact ⟨rfl, h.subset⟩
  | cons message rest ih =>
    cases message with
    | user user =>
      obtain ⟨hrest, hlast⟩ := ih h.2
      refine ⟨?_, hlast⟩
      rw [PayloadGuard.repairOrphansFrom, repairToolResults_eq_self h.1.subset, hrest]
    | assistant assistant =>
      obtain ⟨hrest, hlast⟩ := ih h.2
      refine ⟨?_, hlast⟩
      rw [PayloadGuard.repairOrphansFrom, hrest]

theorem Paired.removeUnpairedToolUses (hstrict : EachAssistant (· ≠ some []) history)
    (h : Paired calls history current) :
    removeUnpairedToolUses current history = (history, 0) := by
  unfold PayloadGuard.removeUnpairedToolUses
  induction history generalizing calls with
  | nil => rfl
  | cons message rest ih =>
    cases message with
    | user user => rw [onToolUses, ih (eachAssistant_user.mp hstrict) h.2]
    | assistant assistant =>
      obtain ⟨hturn, hrest⟩ := eachAssistant_assistant.mp hstrict
      rw [onToolUses, ih hrest h.2, retainToolUses_eq_self hturn]
      rw [List.filter_eq_self]
      intro toolUse hmem
      exact decide_eq_true (h.2.next_perm.symm.subset (List.mem_map_of_mem hmem))

theorem Paired.nodup (h : Paired calls history current) (hcalls : calls.Nodup)
    (hids : (toolUseIds history).Nodup) :
    EachUser (fun results => (resultIds results).Nodup) history ∧ (resultIds current).Nodup := by
  induction history generalizing calls with
  | nil => exact ⟨eachUser_nil, h.nodup_iff.mpr hcalls⟩
  | cons message rest ih =>
    cases message with
    | user user =>
      obtain ⟨hrest, hcurrent⟩ := ih h.2 List.nodup_nil hids
      exact ⟨eachUser_user.mpr ⟨h.1.nodup_iff.mpr hcalls, hrest⟩, hcurrent⟩
    | assistant assistant =>
      rw [toolUseIds_assistant] at hids
      obtain ⟨hturn, hrest, -⟩ := List.nodup_append.mp hids
      obtain ⟨hrest, hcurrent⟩ := ih h.2 hturn hrest
      exact ⟨eachUser_assistant.mpr hrest, hcurrent⟩

end Orphans

theorem notBlank_dedupeToolUses (history : List Message) :
    ∀ id ∈ toolUseIds (dedupeToolUses history).1, isBlankText id = false := by
  refine mem_toolUseIds_onToolUses history fun rest toolUses id hid => ?_
  rw [getD_retainToolUses _ rfl] at hid
  obtain ⟨toolUse, hmem, rfl⟩ := List.mem_map.mp hid
  have hkept := (keepFirst_sublist _ _ _).subset hmem
  simpa using (List.mem_filter.mp hkept).2

theorem dedupeToolUses_eq_self {history : List Message}
    (hids : ∀ id ∈ toolUseIds history, isBlankText id = false)
    (hnodup : ∀ message ∈ history, message.toolUseIds.Nodup)
    (hstrict : EachAssistant (· ≠ some []) history) : dedupeToolUses history = (history, 0) := by
  refine onToolUses_eq_self fun assistant hmem rest =>
    retainToolUses_eq_self (hstrict assistant hmem) ?_
  have hfilter : ((assistant.toolUses.getD []).filter fun toolUse =>
      !isBlankText toolUse.toolUseId) = assistant.toolUses.getD [] := by
    rw [List.filter_eq_self]
    intro toolUse huse
    rw [hids _ (List.mem_flatMap.mpr ⟨_, hmem, List.mem_map_of_mem huse⟩)]
    rfl
  rw [hfilter, keepFirst_eq_self (hnodup _ hmem) fun _ _ hmem => (by cases hmem)]

theorem stripEmptyToolUses_eq_self {history : List Message}
    (hstrict : EachAssistant (· ≠ some []) history) :
    stripEmptyToolUses history = (history, 0) := by
  refine onToolUses_eq_self fun assistant hmem rest => ?_
  have hne := hstrict assistant hmem
  match assistant.toolUses, hne with
  | none, _ => rfl
  | some [], hne => exact absurd rfl hne
  | some (toolUse :: toolUses), _ => rfl

/-- Each pass keeps what the passes before it have established. -/
theorem repaired_repairRequest (request : KiroRequest) : Repaired (repairRequest request).1 := by
  obtain ⟨history, ⟨content, images, results⟩, tools⟩ := request
  let normalized := (normalizeEmptyToolResultContents history).1
  let deduped := (dedupeToolUses (stripEmptyToolUses normalized).1).1
  let current := (normalizeToolResultsContent results).1
  let renamed := renameRepeatedToolUseIds deduped current
  let single := (dedupeHistoryToolResults renamed.1).1
  let answered := (repairOrphanToolResults single).1
  let user : UserMessage := ⟨content, images, (dedupeToolResultsKeepFirst renamed.2.1).1⟩
  let kept := (repairToolResults (lastAssistantToolUseIds [] answered) user).1
  have hnormalized : EachUser Normalized renamed.1 ∧ Normalized renamed.2.1 := by
    rw [show renamed = _ from renameFrom_eq 0 ∅ current deduped]
    refine EachUser.renameTurns normalized_renameMatchingToolResults 0 ∅ (fun _ h => h)
      (normalized_normalizeToolResultsContent results) ?_
    refine ((EachUser.onUserResults (P := fun _ => True) (fun _ _ => trivial) ?_).onToolUses
      _).onToolUses _
    exact fun results _ => normalized_normalizeToolResultsContent results
  have hstrict : EachAssistant (· ≠ some []) renamed.1 := by
    rw [show renamed = _ from renameFrom_eq 0 ∅ current deduped]
    exact EachAssistant.renameTurns 0 ∅ id current
      (EachAssistant.onToolUses _ fun _ toolUses => retainToolUses_ne _ toolUses)
  have hdistinct : Distinct (toolUseIds answered) := by
    rw [show toolUseIds answered = toolUseIds single from toolUseIds_repairOrphansFrom [] single,
      show toolUseIds single = toolUseIds renamed.1 from toolUseIds_onUserResults _ _]
    exact distinct_renameRepeatedToolUseIds current (notBlank_dedupeToolUses _)
  have hsingle : EachUser (fun results => (resultIds results).Nodup) single :=
    EachUser.onUserResults (P := fun _ => True) (fun _ _ => trivial)
      fun results _ => nodup_dedupeToolResultsKeepFirst results
  have hwithin : Within [] answered kept.toolResults :=
    within_repairOrphansFrom [] hsingle (nodup_dedupeToolResultsKeepFirst renamed.2.1)
  have hanswered : EachUser Normalized answered :=
    EachUser.repairOrphansFrom Normalized.sublist []
      (hnormalized.1.onUserResults fun results hresults =>
        hresults.sublist (dedupeToolResultsKeepFirst_sublist results))
  exact
    { history := hanswered.onToolUses _
      current := by
        change Normalized kept.toolResults
        rw [toolResults_repairToolResults]
        exact (hnormalized.2.sublist (dedupeToolResultsKeepFirst_sublist _)).sublist
          List.filter_sublist
      strict := EachAssistant.onToolUses answered fun _ toolUses => retainToolUses_ne _ toolUses
      distinct := hdistinct.sublist (toolUseIds_removeUnpairedToolUses_sublist _ _)
      paired := paired_removeUnpairedToolUses List.nodup_nil hdistinct.ids_nodup hwithin }

theorem Paired.eq_self {history : List Message} {user : UserMessage}
    (h : Paired [] history user.toolResults) (hstrict : EachAssistant (· ≠ some []) history)
    (hdistinct : Distinct (toolUseIds history)) :
    dedupeHistoryToolResults history = (history, 0) ∧
      repairOrphanToolResults history = (history, 0) ∧
      dedupeToolResultsKeepFirst user.toolResults = (user.toolResults, 0) ∧
      repairToolResults (lastAssistantToolUseIds [] history) user = (user, 0) ∧
      PayloadGuard.removeUnpairedToolUses user.toolResults history = (history, 0) := by
  obtain ⟨hsingle, hcurrent⟩ := h.nodup List.nodup_nil hdistinct.ids_nodup
  obtain ⟨horphans, hlast⟩ := h.repairOrphansFrom
  exact ⟨onUserResults_eq_self fun user hmem => dedupeToolResultsKeepFirst_eq_self (hsingle user hmem),
    horphans, dedupeToolResultsKeepFirst_eq_self hcurrent, repairToolResults_eq_self hlast,
    h.removeUnpairedToolUses hstrict⟩

/-- Every pass finds nothing to do. -/
theorem Repaired.repairRequest_eq_self {request : KiroRequest} (h : Repaired request) :
    repairRequest request = (request, .default) := by
  obtain ⟨history, ⟨content, images, results⟩, tools⟩ := request
  obtain ⟨hhistory, hcurrent, hstrict, hdistinct, hpaired⟩ := h
  dsimp only at hhistory hcurrent hstrict hdistinct
  obtain ⟨hdedupe, horphans, hdedupeCurrent, hrepair, hunpaired⟩ := hpaired.eq_self hstrict hdistinct
  have hturns : ∀ message ∈ history, message.toolUseIds.Nodup :=
    fun message hmem => (List.nodup_flatMap.mp hdistinct.ids_nodup).1 message hmem
  have hnormalize : normalizeEmptyToolResultContents history = (history, 0) :=
    onUserResults_eq_self fun user hmem =>
      normalizeToolResultsContent_eq_self (hhistory user hmem)
  have hrename : renameRepeatedToolUseIds history results = (history, results, 0) :=
    (renameFrom_eq 0 ∅ results history).trans
      (renameTurns_eq_self 0 results hdistinct fun _ _ => Finset.notMem_empty _)
  unfold repairRequest
  dsimp only
  rw [hnormalize, normalizeToolResultsContent_eq_self hcurrent]
  dsimp only
  rw [stripEmptyToolUses_eq_self hstrict]
  dsimp only
  rw [dedupeToolUses_eq_self hdistinct.notBlank hturns hstrict]
  dsimp only
  rw [hrename]
  dsimp only
  rw [hdedupe, hdedupeCurrent]
  dsimp only
  rw [horphans]
  dsimp only
  rw [hrepair]
  dsimp only
  rw [hunpaired]
  rfl

end KiroProxy.PayloadGuard
