import KiroProxy.PayloadGuard.Pairing

/-!
# Ids that are used again

The calls of an assistant turn get the names `names`, in which an id of an earlier turn is replaced,
and the results of the turn after it are renamed by `resultName`. The two agree when each id that is
replaced is one of an earlier turn and has no padding; then the repair only renames, and otherwise
it removes a call or renames one without need.
-/

namespace KiroProxy.PayloadGuard

theorem trim_trim (s : String) : trim (trim s) = trim s := by
  have hstart : trimStart (trimChars s.toList) = trimChars s.toList :=
    trimStart_eq_self head?_trimChars
  rw [trim, trim, String.toList_ofList, trimChars_eq_rdropWhile, hstart, trimChars_eq_rdropWhile,
    List.rdropWhile_idempotent]

/-- The id of a call after the renaming. -/
def nameOf (idx : ℕ) (seen : Finset String) (id : String) : String :=
  if trim id ∈ seen then makeUniqueDuplicateToolUseId (trim id) seen idx else id

def names (idx : ℕ) : Finset String → List String → List String
  | _, [] => []
  | seen, id :: ids =>
    nameOf idx seen id :: names idx (insert (trim (nameOf idx seen id)) seen) ids

/-- What the renaming of these calls makes of the id of a result. -/
def resultName (idx : ℕ) : Finset String → List String → String → String
  | _, [], name => name
  | seen, id :: ids, name =>
    resultName idx (insert (trim (nameOf idx seen id)) seen) ids
      (if trim id ∈ seen ∧ name = trim id then nameOf idx seen id else name)

/-- Each id that is seen when it is its turn was seen in an earlier turn, and is not padded. -/
def SafeIds (idx : ℕ) (earlier : Finset String) : Finset String → List String → Prop
  | _, [] => True
  | seen, id :: ids =>
    (trim id ∈ seen → trim id ∈ earlier ∧ trim id = id) ∧
      SafeIds idx earlier (insert (trim (nameOf idx seen id)) seen) ids

def ToolUseEntry.named (toolUse : ToolUseEntry) (name : String) : ToolUseEntry :=
  { toolUse with toolUseId := name }

def ToolResult.named (name : String → String) (result : ToolResult) : ToolResult :=
  { result with toolUseId := name result.toolUseId }

section Names

variable {idx : ℕ} {earlier seen : Finset String} {id name : String} {ids : List String}
variable {toolUses : List ToolUseEntry}

theorem nameOf_of_mem (idx : ℕ) (hid : trim id ≠ "") (hseen : trim id ∈ seen) :
    nameOf idx seen id ∉ seen ∧ trim (nameOf idx seen id) = nameOf idx seen id := by
  rw [nameOf, if_pos hseen]
  exact ⟨makeUniqueDuplicateToolUseId_not_mem _ _ _, (trim_makeUniqueDuplicateToolUseId hid _ _).2⟩

theorem nameOf_of_notMem (hseen : trim id ∉ seen) : nameOf idx seen id = id := if_neg hseen

theorem length_names (idx : ℕ) (seen : Finset String) (ids : List String) :
    (names idx seen ids).length = ids.length := by
  induction ids generalizing seen with
  | nil => rfl
  | cons id ids ih => exact congrArg (· + 1) (ih _)

theorem renameMatchingToolResults_eq (oldId newId : String) (results : List ToolResult) :
    renameMatchingToolResults oldId newId results =
      results.map (ToolResult.named fun id => if id = oldId then newId else id) := by
  refine List.map_congr_left fun result _ => ?_
  rw [ToolResult.named]
  split_ifs
  · rfl
  · rfl

theorem ToolResult.map_named (results : List ToolResult) (name name' : String → String) :
    (results.map (ToolResult.named name)).map (ToolResult.named name') =
      results.map (ToolResult.named fun id => name' (name id)) := List.map_map

/-- What the renaming of a turn does. -/
theorem renameToolUses_eq (idx : ℕ) (seen : Finset String) (results : List ToolResult)
    (hids : ∀ id ∈ useIds toolUses, trim id ≠ "") :
    (renameToolUses idx seen results toolUses).toolUses =
        toolUses.zipWith ToolUseEntry.named (names idx seen (useIds toolUses)) ∧
      (renameToolUses idx seen results toolUses).results =
        results.map (ToolResult.named (resultName idx seen (useIds toolUses))) ∧
      (renameToolUses idx seen results toolUses).seen =
        seen ∪ ((names idx seen (useIds toolUses)).map trim).toFinset := by
  induction toolUses generalizing seen results with
  | nil => exact ⟨rfl, (List.map_id results).symm, (Finset.union_empty seen).symm⟩
  | cons toolUse toolUses ih =>
    have hid : trim toolUse.toolUseId ≠ "" := hids _ List.mem_cons_self
    have hrest : ∀ id ∈ useIds toolUses, trim id ≠ "" :=
      fun id hmem => hids id (List.mem_cons_of_mem _ hmem)
    rw [renameToolUses, if_neg hid]
    simp only [useIds, List.map_cons, names, resultName, List.zipWith_cons_cons,
      List.toFinset_cons]
    rw [← Finset.insert_union_comm]
    by_cases hseen : trim toolUse.toolUseId ∈ seen
    · have hname := (nameOf_of_mem idx hid hseen).2
      have hnew : nameOf idx seen toolUse.toolUseId =
          makeUniqueDuplicateToolUseId (trim toolUse.toolUseId) seen idx := if_pos hseen
      rw [hname, hnew, if_neg (not_not.mpr hseen)]
      obtain ⟨huses, hresults, hafter⟩ := ih _
        (renameMatchingToolResults (trim toolUse.toolUseId)
          (makeUniqueDuplicateToolUseId (trim toolUse.toolUseId) seen idx) results) hrest
      refine ⟨congrArg _ huses, hresults.trans ?_, hafter⟩
      rw [renameMatchingToolResults_eq, ToolResult.map_named]
      simp only [hseen, true_and, useIds]
    · rw [nameOf_of_notMem hseen, if_pos hseen]
      obtain ⟨huses, hresults, hafter⟩ := ih _ results hrest
      refine ⟨congrArg _ huses, hresults.trans ?_, hafter⟩
      simp only [hseen, false_and, if_false, useIds]

theorem resultName_of_trim_ne (hname : trim name ≠ name) : resultName idx seen ids name = name := by
  induction ids generalizing seen with
  | nil => rfl
  | cons id ids ih =>
    rw [resultName, if_neg, ih]
    rintro ⟨-, rfl⟩
    exact hname (trim_trim id)

theorem SafeIds.resultName_eq_self (h : SafeIds idx earlier seen ids)
    (hname : name ∉ earlier ∨ name ∉ ids) : resultName idx seen ids name = name := by
  induction ids generalizing seen with
  | nil => rfl
  | cons id ids ih =>
    obtain ⟨hid, hrest⟩ := h
    rw [resultName, if_neg, ih hrest (hname.imp_right fun hmem => mt (List.mem_cons_of_mem _) hmem)]
    rintro ⟨hseen, rfl⟩
    obtain ⟨hearlier, heq⟩ := hid hseen
    rcases hname with hname | hname
    · exact hname hearlier
    · exact hname (by rw [heq]; exact List.mem_cons_self)

/-- With safe ids, the results get the names of their calls. -/
theorem SafeIds.names_eq (h : SafeIds idx earlier seen ids) (hsub : earlier ⊆ seen)
    (hblank : ∀ id ∈ ids, trim id ≠ "") (hnodup : ids.Nodup) :
    names idx seen ids = ids.map (resultName idx seen ids) ∧
      ∀ id ∈ ids, resultName idx seen ids id = id ∨ trim id ∈ earlier := by
  induction ids generalizing seen with
  | nil => exact ⟨rfl, fun _ hmem => (by cases hmem)⟩
  | cons id ids ih =>
    obtain ⟨hid, hrest⟩ := h
    obtain ⟨hnot, hnodup⟩ := List.nodup_cons.mp hnodup
    obtain ⟨hnames, hold⟩ := ih hrest (hsub.trans (Finset.subset_insert _ _))
      (fun id hmem => hblank id (List.mem_cons_of_mem _ hmem)) hnodup
    have hfirst : resultName idx seen (id :: ids) id = nameOf idx seen id := by
      by_cases hseen : trim id ∈ seen
      · have hnew := (nameOf_of_mem idx (hblank id List.mem_cons_self) hseen).1
        rw [resultName, if_pos ⟨hseen, (hid hseen).2.symm⟩]
        exact hrest.resultName_eq_self (.inl fun hmem => hnew (hsub hmem))
      · rw [resultName, if_neg fun h => hseen h.1, nameOf_of_notMem hseen]
        rw [nameOf_of_notMem hseen] at hrest
        exact hrest.resultName_eq_self (.inr hnot)
    have hlater : ∀ id' ∈ ids, resultName idx seen (id :: ids) id' =
        resultName idx (insert (trim (nameOf idx seen id)) seen) ids id' := by
      intro id' hmem
      rw [resultName, if_neg]
      rintro ⟨hseen, rfl⟩
      exact hnot ((hid hseen).2 ▸ hmem)
    refine ⟨?_, fun id' hmem => ?_⟩
    · rw [names, List.map_cons, hfirst, hnames, List.map_congr_left hlater]
    · rcases List.mem_cons.mp hmem with rfl | hmem
      · by_cases hseen : trim id' ∈ seen
        · exact .inr (hid hseen).1
        · exact .inl (hfirst.trans (nameOf_of_notMem hseen))
      · rw [hlater id' hmem]
        exact hold id' hmem

/-- A name that is the same for calls and results, and new only for ids of earlier turns. -/
theorem SafeIds.of_names {name : String → String} (hnames : names idx seen ids = ids.map name)
    (hresults : ∀ id ∈ ids, resultName idx seen ids id = name id)
    (hold : ∀ id ∈ ids, name id = id ∨ trim id ∈ earlier)
    (hblank : ∀ id ∈ ids, trim id ≠ "") (hnodup : ids.Nodup) : SafeIds idx earlier seen ids := by
  induction ids generalizing seen with
  | nil => trivial
  | cons id ids ih =>
    obtain ⟨hnot, hnodup⟩ := List.nodup_cons.mp hnodup
    rw [names, List.map_cons, List.cons.injEq] at hnames
    have hid : trim id ∈ seen → trim id ∈ earlier ∧ trim id = id := by
      intro hseen
      obtain ⟨hnew, htrim⟩ := nameOf_of_mem idx (hblank id List.mem_cons_self) hseen
      have hne : name id ≠ id := by
        intro heq
        rw [hnames.1, heq] at hnew htrim
        exact hnew (htrim ▸ hseen)
      refine ⟨(hold id List.mem_cons_self).resolve_left hne, ?_⟩
      by_contra hpad
      exact hne ((hresults id List.mem_cons_self).symm.trans (resultName_of_trim_ne hpad))
    refine ⟨hid, ih hnames.2 (fun id' hmem => ?_) (fun id' hmem => hold id' (.tail _ hmem))
      (fun id' hmem => hblank id' (.tail _ hmem)) hnodup⟩
    rw [← hresults id' (.tail _ hmem), resultName, if_neg]
    rintro ⟨hseen, rfl⟩
    exact hnot ((hid hseen).2 ▸ hmem)

end Names

/-- The first passes put a placeholder into empty results and drop empty lists of calls. -/
def Message.prepared : Message → Message
  | .user turn => .user { turn with toolResults := turn.toolResults.map normalizeToolResult }
  | .assistant ⟨content, some [], reasoning⟩ => .assistant ⟨content, none, reasoning⟩
  | .assistant turn => .assistant turn

/-- Each turn's calls have ids of their own, and each has one result in the turn after it. -/
structure Clean (request : KiroRequest) : Prop where
  notBlank : ∀ id ∈ toolUseIds request.history, isBlankText id = false
  nodup : ∀ message ∈ request.history, message.toolUseIds.Nodup
  paired : Paired [] request.history request.current.toolResults

/-- The turns are the same up to placeholders and ids. A turn's calls and their results get the
same new names, `name` for the results at the start, and a new name is only for an id that an
earlier turn has, before or after. -/
def OnlyRenamed (earlier : Finset String) (name : String → String) :
    List Message → List ToolResult → List Message → List ToolResult → Prop
  | [], current, [], current' =>
    current' = (current.map normalizeToolResult).map (ToolResult.named name)
  | .user user :: rest, current, .user user' :: rest', current' =>
    user' = { user with
      toolResults := (user.toolResults.map normalizeToolResult).map (ToolResult.named name) } ∧
      OnlyRenamed earlier id rest current rest' current'
  | .assistant assistant :: rest, current, .assistant assistant' :: rest', current' =>
    assistant'.content = assistant.content ∧
      assistant'.reasoningContent = assistant.reasoningContent ∧
      ∃ name' : String → String,
        assistant'.toolUses.getD [] =
          (assistant.toolUses.getD []).map (fun toolUse => toolUse.named (name' toolUse.toolUseId)) ∧
        (∀ id ∈ assistant.ids, name' id = id ∨ trim id ∈ earlier) ∧
        OnlyRenamed (earlier ∪ (assistant.ids.map trim).toFinset ∪
          (assistant'.ids.map trim).toFinset) name' rest current rest' current'
  | _, _, _, _ => False

theorem OnlyRenamed.length_toolUseIds {earlier : Finset String} {name : String → String}
    {history history' : List Message} {current current' : List ToolResult}
    (h : OnlyRenamed earlier name history current history' current') :
    (toolUseIds history').length = (toolUseIds history).length := by
  induction history generalizing earlier name history' with
  | nil =>
    cases history' with
    | nil => rfl
    | cons message rest => exact h.elim
  | cons message rest ih =>
    match message, history', h with
    | .user user, .user user' :: rest', h =>
      have hrest := ih h.2
      exact hrest
    | .assistant assistant, .assistant assistant' :: rest', h =>
      obtain ⟨-, -, name', huses, -, hrest⟩ := h
      rw [toolUseIds_assistant, toolUseIds_assistant, List.length_append, List.length_append,
        ih hrest, AssistantMessage.ids, AssistantMessage.ids, useIds, useIds, List.length_map,
        List.length_map, huses, List.length_map]

structure KeepsCalls (request request' : KiroRequest) : Prop where
  turns : OnlyRenamed ∅ id request.history request.current.toolResults request'.history
    request'.current.toolResults
  current : request'.current =
    { request.current with toolResults := request'.current.toolResults }
  tools : request'.tools = request.tools

def RenamesSafely : ℕ → Finset String → List Message → Prop
  | _, _, [] => True
  | idx, seen, .user _ :: rest => RenamesSafely (idx + 1) seen rest
  | idx, seen, .assistant assistant :: rest =>
    SafeIds idx seen seen assistant.ids ∧
      RenamesSafely (idx + 1) (seen ∪ ((names idx seen assistant.ids).map trim).toFinset) rest

/-- The renaming after the first passes. -/
def namedTurns (idx : ℕ) (seen : Finset String) (name : String → String) (history : List Message)
    (current : List ToolResult) : List Message × List ToolResult :=
  let turns := renameTurns idx seen (List.map (ToolResult.named name))
    (history.map Message.prepared) (current.map normalizeToolResult)
  (turns.1, turns.2.1)

section Turns

variable {idx : ℕ} {seen : Finset String} {name name' : String → String} {calls : List String}
variable {history history' rest : List Message} {current current' : List ToolResult}

theorem namedTurns_nil :
    namedTurns idx seen name [] current =
      ([], (current.map normalizeToolResult).map (ToolResult.named name)) := rfl

theorem namedTurns_user (user : UserMessage) :
    namedTurns idx seen name (.user user :: rest) current =
      (.user { user with
        toolResults := (user.toolResults.map normalizeToolResult).map (ToolResult.named name) } ::
          (namedTurns (idx + 1) seen id rest current).1,
        (namedTurns (idx + 1) seen id rest current).2) := by
  have hid : List.map (ToolResult.named id) = id := funext fun results => List.map_id results
  unfold namedTurns
  rw [hid]
  rfl

theorem ids_zipWith_named {toolUses : List ToolUseEntry} {ids : List String}
    (hlength : ids.length = toolUses.length) :
    useIds (toolUses.zipWith ToolUseEntry.named ids) = ids := by
  induction toolUses generalizing ids with
  | nil => exact (List.length_eq_zero_iff.mp hlength).symm
  | cons toolUse toolUses ih =>
    cases ids with
    | nil => cases hlength
    | cons id ids => exact congrArg (id :: ·) (ih (Nat.succ.inj hlength))

theorem toolUses_prepared (assistant : AssistantMessage) : ∃ toolUses,
    Message.prepared (.assistant assistant) = .assistant { assistant with toolUses := toolUses } ∧
      toolUses.getD [] = assistant.toolUses.getD [] ∧ toolUses ≠ some [] := by
  obtain ⟨content, toolUses, reasoning⟩ := assistant
  match toolUses with
  | none => exact ⟨none, rfl, rfl, nofun⟩
  | some [] => exact ⟨none, rfl, rfl, nofun⟩
  | some (toolUse :: toolUses) => exact ⟨some (toolUse :: toolUses), rfl, rfl, nofun⟩

theorem namedTurns_assistant (idx : ℕ) (seen : Finset String) (name : String → String)
    (rest : List Message) (current : List ToolResult) {assistant : AssistantMessage}
    (hids : ∀ id ∈ assistant.ids, trim id ≠ "") : ∃ toolUses : Option (List ToolUseEntry),
    toolUses.getD [] = (assistant.toolUses.getD []).zipWith ToolUseEntry.named
        (names idx seen assistant.ids) ∧
      useIds (toolUses.getD []) = names idx seen assistant.ids ∧
      namedTurns idx seen name (.assistant assistant :: rest) current =
        (.assistant { assistant with toolUses := toolUses } ::
          (namedTurns (idx + 1) (seen ∪ ((names idx seen assistant.ids).map trim).toFinset)
            (resultName idx seen assistant.ids) rest current).1,
          (namedTurns (idx + 1) (seen ∪ ((names idx seen assistant.ids).map trim).toFinset)
            (resultName idx seen assistant.ids) rest current).2) := by
  obtain ⟨toolUses, hprepared, hgetD, -⟩ := toolUses_prepared assistant
  have hturn (results : List ToolResult) := renameToolUses_eq idx seen results hids
  have huses : ((toolUses.map fun _ =>
      (renameToolUses idx seen [] (toolUses.getD [])).toolUses).getD []) =
        (assistant.toolUses.getD []).zipWith ToolUseEntry.named (names idx seen assistant.ids) := by
    rw [ids_renamed, hgetD]
    exact (hturn []).1
  refine ⟨_, huses, ?_, ?_⟩
  · rw [huses]
    exact ids_zipWith_named ((length_names _ _ _).trans (List.length_map _))
  · unfold namedTurns
    rw [List.map_cons, hprepared]
    simp only [renameTurns, hgetD, hturn]
    rfl

theorem resultIds_named (results : List ToolResult) :
    resultIds ((results.map normalizeToolResult).map (ToolResult.named name)) =
      (resultIds results).map name := by
  have hid (result : ToolResult) : (normalizeToolResult result).toolUseId = result.toolUseId := by
    unfold normalizeToolResult
    split_ifs
    · rfl
    · rfl
  rw [resultIds, resultIds, List.map_map, List.map_map, List.map_map]
  exact List.map_congr_left fun result _ => congrArg name (hid result)

theorem zipWith_named (toolUses : List ToolUseEntry) :
    toolUses.zipWith ToolUseEntry.named ((useIds toolUses).map name) =
      toolUses.map fun toolUse => toolUse.named (name toolUse.toolUseId) := by
  rw [useIds, List.map_map, List.zipWith_map_right, List.zipWith_self]
  rfl

theorem trim_mem_names {id : String} {ids : List String} (hid : id ∈ ids) :
    trim id ∈ seen ∪ ((names idx seen ids).map trim).toFinset := by
  induction ids generalizing seen with
  | nil => cases hid
  | cons first ids ih =>
    rw [names, List.map_cons, List.toFinset_cons, ← Finset.insert_union_comm]
    rcases List.mem_cons.mp hid with rfl | hid
    · refine Finset.mem_union_left _ ?_
      by_cases hseen : trim id ∈ seen
      · exact Finset.mem_insert_of_mem hseen
      · rw [nameOf_of_notMem hseen]
        exact Finset.mem_insert_self _ _
    · exact ih hid

theorem seen_names (ids : List String) :
    seen ∪ (ids.map trim).toFinset ∪ ((names idx seen ids).map trim).toFinset =
      seen ∪ ((names idx seen ids).map trim).toFinset := by
  rw [Finset.union_right_comm]
  refine Finset.union_eq_left.mpr fun name hname => ?_
  obtain ⟨id, hid, rfl⟩ := List.mem_map.mp (List.mem_toFinset.mp hname)
  exact trim_mem_names hid

/-- Safe ids only get new names. -/
theorem RenamesSafely.onlyRenamed (h : RenamesSafely idx seen history)
    (hblank : ∀ id ∈ toolUseIds history, trim id ≠ "")
    (hnodup : ∀ message ∈ history, message.toolUseIds.Nodup)
    (hpaired : Paired calls history current) :
    OnlyRenamed seen name history current (namedTurns idx seen name history current).1
        (namedTurns idx seen name history current).2 ∧
      Paired (calls.map name) (namedTurns idx seen name history current).1
        (namedTurns idx seen name history current).2 := by
  induction history generalizing idx seen name calls with
  | nil =>
    refine ⟨rfl, ?_⟩
    rw [namedTurns_nil, Paired, resultIds_named]
    exact hpaired.map name
  | cons message rest ih =>
    have hlater := fun turn hmem => hnodup turn (List.mem_cons_of_mem _ hmem)
    cases message with
    | user user =>
      obtain ⟨honly, hrest⟩ := @ih (idx + 1) seen id [] h hblank hlater hpaired.2
      rw [namedTurns_user]
      refine ⟨⟨rfl, honly⟩, ?_, hrest⟩
      rw [resultIds_named]
      exact hpaired.1.map name
    | assistant assistant =>
      have hids : ∀ id ∈ assistant.ids, trim id ≠ "" :=
        fun id hid => hblank id (List.mem_append_left _ hid)
      have hturn : assistant.ids.Nodup := hnodup _ List.mem_cons_self
      obtain ⟨hnames, hold⟩ := h.1.names_eq subset_rfl hids hturn
      obtain ⟨toolUses, huses, hafter, heq⟩ := namedTurns_assistant idx seen name rest
        current hids
      obtain ⟨honly, hrest⟩ := @ih (idx + 1) _ (resultName idx seen assistant.ids) _ h.2
        (fun id hid => hblank id (List.mem_append_right _ hid)) hlater hpaired.2
      have hafter : AssistantMessage.ids { assistant with toolUses := toolUses } =
          names idx seen assistant.ids := hafter
      rw [heq]
      refine ⟨⟨rfl, rfl, resultName idx seen assistant.ids, ?_, hold, ?_⟩, ?_⟩
      · rw [huses, hnames]
        exact zipWith_named _
      · rw [hafter, seen_names]
        exact honly
      · refine ⟨by rw [hpaired.1, List.map_nil], ?_⟩
        rw [(hafter.trans hnames).symm] at hrest
        exact hrest

/-- What the passes after the renaming may do: calls and results go. -/
def Message.Thins : Message → Message → Prop
  | .user before, .user after => after.toolResults.Sublist before.toolResults
  | .assistant before, .assistant after =>
    (after.toolUses.getD []).Sublist (before.toolUses.getD [])
  | _, _ => False

theorem eq_of_named_sublist {results : List ToolResult} (hperm : (resultIds results).Perm calls)
    (hsub : ((results.map normalizeToolResult).map (ToolResult.named name')).Sublist
      ((results.map normalizeToolResult).map (ToolResult.named name))) :
    ∀ id ∈ calls, name id = name' id := by
  have heq := hsub.eq_of_length (by simp only [List.length_map])
  have hids := congrArg resultIds heq
  rw [resultIds_named, resultIds_named, List.map_inj_left] at hids
  exact fun id hid => (hids id (hperm.symm.subset hid)).symm

/-- When new names are all that is left after the other passes, the ids were safe. -/
theorem RenamesSafely.of_onlyRenamed (h : OnlyRenamed seen name' history current history' current')
    (hblank : ∀ id ∈ toolUseIds history, trim id ≠ "")
    (hnodup : ∀ message ∈ history, message.toolUseIds.Nodup)
    (hpaired : Paired calls history current)
    (hthins : List.Forall₂ Message.Thins (namedTurns idx seen name history current).1 history')
    (hcurrent : current'.Sublist (namedTurns idx seen name history current).2) :
    (∀ id ∈ calls, name id = name' id) ∧ RenamesSafely idx seen history := by
  induction history generalizing idx seen name name' calls history' with
  | nil =>
    cases hthins
    rw [namedTurns_nil, show current' = _ from h] at hcurrent
    exact ⟨eq_of_named_sublist hpaired hcurrent, trivial⟩
  | cons message rest ih =>
    have hlater := fun turn hmem => hnodup turn (List.mem_cons_of_mem _ hmem)
    cases message with
    | user user =>
      rw [namedTurns_user] at hthins hcurrent
      obtain ⟨after, rest', hturn, hrest, rfl⟩ := List.forall₂_cons_left_iff.mp hthins
      cases after with
      | assistant assistant => exact hturn.elim
      | user user' =>
        obtain ⟨rfl, honly⟩ := h
        exact ⟨eq_of_named_sublist hpaired.1 hturn,
          (ih honly hblank hlater hpaired.2 hrest hcurrent).2⟩
    | assistant assistant =>
      have hids : ∀ id ∈ assistant.ids, trim id ≠ "" :=
        fun id hid => hblank id (List.mem_append_left _ hid)
      have hnodupTurn : assistant.ids.Nodup := hnodup _ List.mem_cons_self
      obtain ⟨toolUses, huses, hafter, heq⟩ := namedTurns_assistant idx seen name rest
        current hids
      rw [heq] at hthins hcurrent
      obtain ⟨after, rest', hturn, hrest, rfl⟩ := List.forall₂_cons_left_iff.mp hthins
      cases after with
      | user user => exact hturn.elim
      | assistant assistant' =>
        obtain ⟨-, -, newName, hnew, hold, honly⟩ := h
        have hsub : (assistant'.toolUses.getD []).Sublist (toolUses.getD []) := hturn
        have hsame := hsub.eq_of_length (by
          rw [hnew, huses, List.length_map, List.length_zipWith, length_names, AssistantMessage.ids,
            useIds, List.length_map, Nat.min_self])
        have hafter : assistant'.ids = names idx seen assistant.ids := by
          rw [AssistantMessage.ids, hsame, hafter]
        have hnames : names idx seen assistant.ids = assistant.ids.map newName := by
          rw [← hafter, AssistantMessage.ids, hnew, useIds, List.map_map, AssistantMessage.ids, useIds,
            List.map_map]
          rfl
        rw [hafter, seen_names] at honly
        obtain ⟨hresults, hsafe⟩ := ih honly (fun id hid => hblank id (List.mem_append_right _ hid))
          hlater hpaired.2 hrest hcurrent
        refine ⟨fun id hid => ?_, SafeIds.of_names hnames hresults hold hids hnodupTurn, hsafe⟩
        rw [hpaired.1] at hid
        cases hid

end Turns

section Thins

variable {history history' history'' : List Message}

theorem Message.Thins.refl (message : Message) : message.Thins message := by
  cases message with
  | user user => exact List.Sublist.refl _
  | assistant assistant => exact List.Sublist.refl _

theorem Message.Thins.trans {first second third : Message} (h : first.Thins second)
    (h' : second.Thins third) : first.Thins third := by
  match first, second, third, h, h' with
  | .user _, .user _, .user _, h, h' => exact List.Sublist.trans h' h
  | .assistant _, .assistant _, .assistant _, h, h' => exact List.Sublist.trans h' h

theorem thins_trans (h : List.Forall₂ Message.Thins history history')
    (h' : List.Forall₂ Message.Thins history' history'') :
    List.Forall₂ Message.Thins history history'' := by
  induction h generalizing history'' with
  | nil => exact h'
  | cons hturn _ ih =>
    obtain ⟨third, rest, hturn', hrest, rfl⟩ := List.forall₂_cons_left_iff.mp h'
    exact .cons (hturn.trans hturn') (ih hrest)

theorem thins_onUserResults {pass : List ToolResult → List ToolResult × ℕ}
    (hpass : ∀ results, (pass results).1.Sublist results) (history : List Message) :
    List.Forall₂ Message.Thins history (onUserResults pass history).1 := by
  induction history with
  | nil => exact .nil
  | cons message rest ih =>
    cases message with
    | user user => exact .cons (hpass user.toolResults) ih
    | assistant assistant => exact .cons (Message.Thins.refl _) ih

theorem thins_repairOrphansFrom (calls : List String) (history : List Message) :
    List.Forall₂ Message.Thins history (repairOrphansFrom calls history).1 := by
  induction history generalizing calls with
  | nil => exact .nil
  | cons message rest ih =>
    cases message with
    | user user =>
      have hsub : (repairToolResults calls user).1.toolResults.Sublist user.toolResults := by
        rw [toolResults_repairToolResults]
        exact List.filter_sublist
      exact .cons hsub (ih [])
    | assistant assistant => exact .cons (Message.Thins.refl _) (ih _)

theorem thins_removeUnpairedToolUses (current : List ToolResult) (history : List Message) :
    List.Forall₂ Message.Thins history (removeUnpairedToolUses current history).1 := by
  unfold removeUnpairedToolUses
  induction history with
  | nil => exact .nil
  | cons message rest ih =>
    cases message with
    | user user => exact .cons (Message.Thins.refl _) ih
    | assistant assistant =>
      have hsub : ((retainToolUses (fun toolUses => toolUses.filter fun toolUse =>
          toolUse.toolUseId ∈ nextToolResultIds current rest) assistant.toolUses).1.getD []).Sublist
          (assistant.toolUses.getD []) := by
        rw [getD_retainToolUses _ List.filter_nil]
        exact List.filter_sublist
      exact .cons hsub ih

/-- The passes after the renaming only take calls and results away. -/
theorem thins_passes (current : List ToolResult) (history : List Message) :
    List.Forall₂ Message.Thins history (removeUnpairedToolUses current
      (repairOrphanToolResults (dedupeHistoryToolResults history).1).1).1 :=
  thins_trans (thins_onUserResults dedupeToolResultsKeepFirst_sublist history)
    (thins_trans (thins_repairOrphansFrom [] _) (thins_removeUnpairedToolUses current _))

end Thins

theorem prepared_eq (history : List Message) :
    (stripEmptyToolUses (normalizeEmptyToolResultContents history).1).1 =
      history.map Message.prepared := by
  induction history with
  | nil => rfl
  | cons message rest ih =>
    cases message with
    | user user => exact congrArg _ ih
    | assistant assistant =>
      obtain ⟨content, toolUses, reasoning⟩ := assistant
      match toolUses with
      | none => exact congrArg _ ih
      | some [] => exact congrArg _ ih
      | some (toolUse :: toolUses) => exact congrArg _ ih

theorem toolUseIds_prepared (message : Message) :
    message.prepared.toolUseIds = message.toolUseIds := by
  cases message with
  | user user => rfl
  | assistant assistant =>
    obtain ⟨toolUses, hprepared, hgetD, -⟩ := toolUses_prepared assistant
    rw [hprepared]
    exact congrArg useIds hgetD

theorem named_id : List.map (ToolResult.named id) = id := funext fun results => List.map_id results

/-- What the repair makes of a clean request. -/
theorem Clean.repairRequest_eq {history : List Message} {user : UserMessage} {tools : List Tool}
    (h : Clean ⟨history, user, tools⟩) :
    let turns := namedTurns 0 ∅ id history user.toolResults
    let answered := (repairOrphanToolResults (dedupeHistoryToolResults turns.1).1).1
    let current := (repairToolResults (lastAssistantToolUseIds [] answered)
      { user with toolResults := (dedupeToolResultsKeepFirst turns.2).1 }).1
    (repairRequest ⟨history, user, tools⟩).1 =
        ⟨(removeUnpairedToolUses current.toolResults answered).1, current, tools⟩ ∧
      Distinct (toolUseIds turns.1) ∧ EachAssistant (· ≠ some []) turns.1 := by
  intro turns answered current
  have hstrict : EachAssistant (· ≠ some []) (history.map Message.prepared) := by
    intro assistant hmem
    obtain ⟨message, -, heq⟩ := List.mem_map.mp hmem
    cases message with
    | user user => cases heq
    | assistant original =>
      obtain ⟨toolUses, hprepared, -, hne⟩ := toolUses_prepared original
      rw [hprepared] at heq
      cases heq
      exact hne
  have hblank : ∀ id ∈ toolUseIds (history.map Message.prepared), isBlankText id = false := by
    rw [toolUseIds, List.flatMap_map]
    simp only [toolUseIds_prepared]
    exact h.notBlank
  have hnodup : ∀ message ∈ history.map Message.prepared, message.toolUseIds.Nodup := by
    intro message hmem
    obtain ⟨original, horiginal, rfl⟩ := List.mem_map.mp hmem
    rw [toolUseIds_prepared]
    exact h.nodup original horiginal
  obtain ⟨renamed, hrename⟩ : ∃ renamed, renameRepeatedToolUseIds (history.map Message.prepared)
      (user.toolResults.map normalizeToolResult) = (turns.1, turns.2, renamed) := by
    rw [renameRepeatedToolUseIds, renameFrom_eq, ← named_id]
    exact ⟨_, rfl⟩
  refine ⟨?_, ?_, ?_⟩
  · unfold repairRequest
    dsimp only
    rw [prepared_eq, dedupeToolUses_eq_self hblank hnodup hstrict, normalizeToolResultsContent]
    dsimp only
    rw [hrename]
  · have hdistinct := distinct_renameRepeatedToolUseIds (user.toolResults.map normalizeToolResult)
      hblank
    rw [hrename] at hdistinct
    exact hdistinct
  · exact EachAssistant.renameTurns 0 ∅ _ _ hstrict

/-- The repair of a clean request only gives new names, exactly when its ids are safe. -/
theorem repairRequest_keepsCalls_iff {request : KiroRequest} (h : Clean request) :
    KeepsCalls request (repairRequest request).1 ↔ RenamesSafely 0 ∅ request.history := by
  obtain ⟨history, user, tools⟩ := request
  obtain ⟨heq, hdistinct, hstrict⟩ := h.repairRequest_eq
  have hblank : ∀ id ∈ toolUseIds history, trim id ≠ "" :=
    fun id hid => isBlankText_eq_false_iff.mp (h.notBlank id hid)
  constructor
  · intro hkeeps
    rw [heq] at hkeeps
    refine (RenamesSafely.of_onlyRenamed hkeeps.turns hblank h.nodup h.paired
      (thins_passes _ _) ?_).2
    rw [toolResults_repairToolResults]
    exact List.filter_sublist.trans (dedupeToolResultsKeepFirst_sublist _)
  · intro hsafe
    obtain ⟨honly, hpaired⟩ : OnlyRenamed ∅ id history user.toolResults
        (namedTurns 0 ∅ id history user.toolResults).1
        (namedTurns 0 ∅ id history user.toolResults).2 ∧ Paired [] _ _ :=
      hsafe.onlyRenamed hblank h.nodup h.paired
    generalize namedTurns 0 ∅ id history user.toolResults = turns at *
    have hpaired : Paired [] turns.1 ({ user with toolResults := turns.2 } : UserMessage).toolResults :=
      hpaired
    obtain ⟨hdedupe, horphans, hcurrent, hrepair, hunpaired⟩ := hpaired.eq_self hstrict hdistinct
    rw [hdedupe, horphans, hcurrent, hrepair, hunpaired] at heq
    rw [heq]
    exact ⟨honly, rfl, rfl⟩

def turnsOf (id : String) : AssistantMessage × UserMessage :=
  (⟨"", some [⟨id, "read", .null⟩], none⟩, ⟨"", [], [⟨id, [], none, false⟩]⟩)

def repeatedRequest (id : String) : KiroRequest :=
  ⟨[.assistant (turnsOf "a").1, .user (turnsOf "a").2, .assistant (turnsOf id).1], (turnsOf id).2, []⟩

theorem clean_repeatedRequest {id : String} (hid : isBlankText id = false) :
    Clean (repeatedRequest id) where
  notBlank name hname := by
    rcases List.mem_cons.mp hname with rfl | hname
    · decide
    · rw [List.mem_singleton.mp hname]
      exact hid
  nodup := by simp [repeatedRequest, turnsOf, Message.toolUseIds, AssistantMessage.ids, useIds]
  paired := ⟨rfl, .refl _, rfl, .refl _⟩

theorem repairRequest_keepsCalls_repeated : KeepsCalls (repeatedRequest "a")
    (repairRequest (repeatedRequest "a")).1 :=
  (repairRequest_keepsCalls_iff (clean_repeatedRequest (by decide))).mpr
    ⟨⟨nofun, trivial⟩, ⟨fun hseen => ⟨hseen, by decide⟩, trivial⟩, trivial⟩

/-- With padding, the repeated id gets a new name and its result does not; both are removed. -/
theorem not_keepsCalls_padded : Clean (repeatedRequest " a") ∧
    ¬ KeepsCalls (repeatedRequest " a") (repairRequest (repeatedRequest " a")).1 := by
  refine ⟨clean_repeatedRequest (by decide), fun h => ?_⟩
  have hlength := h.turns.length_toolUseIds
  have hids : toolUseIds (repairRequest (repeatedRequest " a")).1.history = ["a"] := by decide +kernel
  rw [hids] at hlength
  exact absurd hlength (by decide)

end KiroProxy.PayloadGuard
