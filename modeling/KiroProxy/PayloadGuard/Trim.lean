import KiroProxy.PayloadGuard.Guard

/-!
# Trimming a history to a budget

Whole turns go from the front of the history until the estimated size of the request meets the
target. The pair with the system prompt stays until nothing else is left. The estimate is made
from the sizes of the removed entries and of the commas between them.
-/

namespace KiroProxy.PayloadGuard

def nonAsciiPayloadWeight : ℕ := 8

def isAscii (c : Char) : Bool := c.toNat < 128

def kiroPayloadWeight (payload : List Char) : ℕ :=
  if payload.all isAscii then utf8Length payload
  else (payload.map fun ch => if isAscii ch then 1 else nonAsciiPayloadWeight).sum

def payloadSize (weighted : Bool) (payload : List Char) : ℕ :=
  if weighted then kiroPayloadWeight payload else utf8Length payload

/-- The texts that the serializer makes. -/
structure Encoding where
  message : Message → List Char
  /-- An entry within a request. Its fields can be in another order than by itself. -/
  entry : Message → List Char
  entry_perm : ∀ turn, (entry turn).Perm (message turn)
  /-- What stands before the history, which is the last field of its object. -/
  head : UserMessage → List Tool → List Char
  tail : List Char

def Encoding.historyField (encoding : Encoding) (history : List Message) : List Char :=
  if history.isEmpty then []
  else ",\"history\":[".toList ++ [','].intercalate (history.map encoding.entry) ++ [']']

def serializeRequest (encoding : Encoding) (request : KiroRequest) : List Char :=
  encoding.head request.current request.tools ++ encoding.historyField request.history ++
    encoding.tail

def syntheticSystemAck : String := "I will follow these instructions."

def syntheticSystemPrefixLen : List Message → ℕ
  | .user _ :: .assistant assistant :: _ =>
    if assistant.content = syntheticSystemAck then 2 else 0
  | _ => 0

def startsTurn : Message → Bool
  | .user user => user.toolResults.isEmpty
  | .assistant _ => false

/-- The number of entries of the first turn, unless its results are those of the current message. -/
def relativeEnd (currentResults : List ToolResult) (remaining : List Message) : Option ℕ :=
  match (remaining.drop 1).findIdx? startsTurn with
  | some idx => some (idx + 1)
  | none => if currentResults.isEmpty then some remaining.length else none

def jsonArrayPrefixReductionFromItemBytes (itemCount prefixLen itemBytes : ℕ) : ℕ :=
  let prefixLen := min prefixLen itemCount
  let separatorsBefore := itemCount - 1
  let separatorsAfter := itemCount - prefixLen - 1
  itemBytes + (separatorsBefore - separatorsAfter)

structure TurnScan where
  turnEnd : ℕ
  removedItemSize : ℕ
  estimatedSize : ℕ

section Scan

variable (encoding : Encoding) (weighted : Bool) (history : List Message) (start : ℕ)
variable (currentResults : List ToolResult) (currentSize targetSize : ℕ)

def itemSize (turn : Message) : ℕ := payloadSize weighted (encoding.message turn)

def scanTurns : ℕ → TurnScan → TurnScan
  | 0, scan => scan
  | fuel + 1, scan =>
    if targetSize < scan.estimatedSize ∧ scan.turnEnd < history.length then
      let remaining := history.drop scan.turnEnd
      match relativeEnd currentResults remaining with
      | none => scan
      | some relativeEnd =>
        if relativeEnd = 0 then scan
        else
          let turnEnd := scan.turnEnd + relativeEnd
          let removedItemSize := scan.removedItemSize +
            ((remaining.take relativeEnd).map (itemSize encoding weighted)).sum
          scanTurns fuel
            { turnEnd
              removedItemSize
              estimatedSize := currentSize - jsonArrayPrefixReductionFromItemBytes history.length
                (turnEnd - start) removedItemSize }
    else scan

structure Trimmed where
  history : List Message
  removed : ℕ
  estimatedSize : ℕ

/-- Each turn has an entry, so there are no more turns than entries. -/
def trimHistoryTurnsFrom : Trimmed :=
  if history.length ≤ start ∨ currentSize ≤ targetSize then ⟨history, 0, currentSize⟩
  else
    let scan := scanTurns encoding weighted history start currentResults currentSize targetSize
      history.length ⟨start, 0, currentSize⟩
    ⟨history.take start ++ history.drop scan.turnEnd, scan.turnEnd - start, scan.estimatedSize⟩

/-- The estimate is that of the last pass. The caller does not see it. -/
def trimHistoryToEstimatedBudget : Trimmed :=
  let prefixLen := syntheticSystemPrefixLen history
  let first := trimHistoryTurnsFrom encoding weighted history prefixLen currentResults currentSize
    targetSize
  if prefixLen = 0 ∨ first.estimatedSize ≤ targetSize ∨ prefixLen < first.history.length then
    first
  else
    let last := trimHistoryTurnsFrom encoding weighted first.history 0 currentResults
      first.estimatedSize targetSize
    { last with removed := first.removed + last.removed }

end Scan

/-- The loop of the guard around the trimming. -/
def trimToWeight (serialize : KiroRequest → Except StepError (List Char)) (encoding : Encoding)
    (maxWeight : ℕ) : ℕ → KiroRequest → ℕ → Option (Except StepError KiroRequest)
  | 0, _, _ => none
  | fuel + 1, request, finalWeight =>
    if maxWeight < finalWeight ∧ request.history ≠ [] then
      let left := trimHistoryToEstimatedBudget encoding true request.history
        request.current.toolResults finalWeight maxWeight
      if left.removed = 0 then some (.ok request)
      else
        let repaired :=
          (repairRequest { request with history := alignHistoryToUser left.history }).1
        match serialize repaired with
        | .error error => some (.error error)
        | .ok body => trimToWeight serialize encoding maxWeight fuel repaired (kiroPayloadWeight body)
    else some (.ok request)

def charSize (weighted : Bool) (ch : Char) : ℕ :=
  if weighted then if isAscii ch then 1 else nonAsciiPayloadWeight else ch.utf8Size

theorem payloadSize_eq (weighted : Bool) (payload : List Char) :
    payloadSize weighted payload = (payload.map (charSize weighted)).sum := by
  cases weighted with
  | false => rfl
  | true =>
    unfold payloadSize kiroPayloadWeight
    rw [if_pos rfl]
    split_ifs with hall
    · rw [List.all_eq_true] at hall
      have hsizes : payload.map Char.utf8Size = payload.map (charSize true) := by
        refine List.map_congr_left fun ch hch => ?_
        have hascii := hall ch hch
        have hlt : ch.toNat < 128 := of_decide_eq_true hascii
        rw [utf8Size_of_lt hlt, charSize, if_pos rfl, if_pos hascii]
      rw [utf8Length, hsizes]
    · rfl

theorem payloadSize_append (weighted : Bool) (payload tail : List Char) :
    payloadSize weighted (payload ++ tail) =
      payloadSize weighted payload + payloadSize weighted tail := by
  simp only [payloadSize_eq, List.map_append, List.sum_append]

theorem payloadSize_perm (weighted : Bool) {payload payload' : List Char}
    (h : payload.Perm payload') : payloadSize weighted payload = payloadSize weighted payload' := by
  rw [payloadSize_eq, payloadSize_eq]
  exact (h.map _).sum_eq

theorem payloadSize_comma (weighted : Bool) : payloadSize weighted [','] = 1 := by
  cases weighted <;> decide

theorem payloadSize_intercalate (weighted : Bool) (texts : List (List Char)) :
    payloadSize weighted ([','].intercalate texts) =
      (texts.map (payloadSize weighted)).sum + (texts.length - 1) := by
  induction texts with
  | nil => cases weighted <;> rfl
  | cons text texts ih =>
    cases texts with
    | nil => simp
    | cons next texts =>
      rw [List.intercalate_cons_cons, payloadSize_append, payloadSize_append, ih,
        payloadSize_comma]
      simp only [List.map_cons, List.sum_cons, List.length_cons]
      omega

variable {encoding : Encoding} {weighted : Bool}

theorem sum_entries (history : List Message) :
    ((history.map encoding.entry).map (payloadSize weighted)).sum =
      (history.map (itemSize encoding weighted)).sum := by
  rw [List.map_map]
  exact congrArg List.sum (List.map_congr_left fun turn _ =>
    payloadSize_perm weighted (encoding.entry_perm turn))

theorem payloadSize_removal {request : KiroRequest} {kept removed rest : List Message}
    (hhistory : request.history = kept ++ removed ++ rest) (hne : kept ++ rest ≠ []) :
    payloadSize weighted (serializeRequest encoding request) =
      payloadSize weighted (serializeRequest encoding { request with history := kept ++ rest }) +
        jsonArrayPrefixReductionFromItemBytes request.history.length removed.length
          (removed.map (itemSize encoding weighted)).sum := by
  have hfield : ∀ history : List Message, history ≠ [] →
      payloadSize weighted (encoding.historyField history) =
        payloadSize weighted ",\"history\":[".toList +
          ((history.map (itemSize encoding weighted)).sum + (history.length - 1)) +
            payloadSize weighted [']'] := by
    intro history hne
    have hempty : ¬history.isEmpty = true := fun hempty => hne (List.isEmpty_iff.mp hempty)
    rw [Encoding.historyField, if_neg hempty, payloadSize_append, payloadSize_append,
      payloadSize_intercalate, sum_entries, List.length_map]
  have hfull : request.history ≠ [] := by
    rintro hnil
    rw [hnil] at hhistory
    have hparts := List.append_eq_nil_iff.mp hhistory.symm
    exact hne (by rw [(List.append_eq_nil_iff.mp hparts.1).1, hparts.2]; rfl)
  have hpos := List.length_pos_iff.mpr hne
  simp only [serializeRequest, payloadSize_append, hfield _ hfull, hfield _ hne]
  unfold jsonArrayPrefixReductionFromItemBytes
  rw [hhistory]
  simp only [List.map_append, List.sum_append, List.length_append] at hpos ⊢
  omega

variable {currentResults : List ToolResult} {remaining rest : List Message}

def turnBoundary (currentResults : List ToolResult) : List Message → Bool
  | [] => currentResults.isEmpty
  | turn :: _ => startsTurn turn

/-- What is left of entries when whole turns go from their front. -/
structure IsCut (currentResults : List ToolResult) (entries rest : List Message) : Prop where
  suffix : rest <:+ entries
  boundary : rest = entries ∨ turnBoundary currentResults rest = true

theorem turnBoundary_drop {idx : ℕ} (hidx : idx < remaining.length) :
    turnBoundary currentResults (remaining.drop idx) = startsTurn remaining[idx] := by
  rw [List.drop_eq_getElem_cons hidx]
  rfl

theorem exists_drop_of_suffix (hsuffix : rest <:+ remaining) (hne : rest ≠ remaining) :
    ∃ idx, 0 < idx ∧ idx ≤ remaining.length ∧ rest = remaining.drop idx := by
  have hdrop := List.suffix_iff_eq_drop.mp hsuffix
  refine ⟨remaining.length - rest.length, ?_, Nat.sub_le _ _, hdrop⟩
  by_contra hzero
  rw [Nat.eq_zero_of_not_pos hzero, List.drop_zero] at hdrop
  exact hne hdrop

theorem startsTurn_of_findIdx?_none (h : (remaining.drop 1).findIdx? startsTurn = none) {idx : ℕ}
    (hpos : 0 < idx) (hidx : idx < remaining.length) : startsTurn remaining[idx] = false := by
  have hlt : idx - 1 < (remaining.drop 1).length := by
    rw [List.length_drop]
    omega
  have hfalse := List.findIdx?_eq_none_iff.mp h _ (List.getElem_mem hlt)
  rw [List.getElem_drop] at hfalse
  rw [← hfalse]
  congr 2
  omega

theorem relativeEnd_none (h : relativeEnd currentResults remaining = none)
    (hsuffix : rest <:+ remaining) (hboundary : turnBoundary currentResults rest = true) :
    rest = remaining := by
  by_contra hne
  obtain ⟨idx, hpos, hle, rfl⟩ := exists_drop_of_suffix hsuffix hne
  unfold relativeEnd at h
  split at h
  · cases h
  · next hfind =>
    split at h
    · cases h
    · next hresults =>
      rcases Nat.lt_or_eq_of_le hle with hlt | heq
      · rw [turnBoundary_drop hlt, startsTurn_of_findIdx?_none hfind hpos hlt] at hboundary
        cases hboundary
      · rw [heq, List.drop_length] at hboundary
        exact hresults hboundary

theorem relativeEnd_some {relEnd : ℕ} (h : relativeEnd currentResults remaining = some relEnd)
    (hne : remaining ≠ []) :
    0 < relEnd ∧ relEnd ≤ remaining.length ∧
      turnBoundary currentResults (remaining.drop relEnd) = true ∧
      ∀ rest, rest <:+ remaining → rest ≠ remaining → turnBoundary currentResults rest = true →
        rest.length ≤ remaining.length - relEnd := by
  have hlength := List.length_pos_iff.mpr hne
  unfold relativeEnd at h
  split at h
  · next idx hfind =>
    cases h
    obtain ⟨hidx, hstarts, hbefore⟩ := List.findIdx?_eq_some_iff_getElem.mp hfind
    rw [List.length_drop] at hidx
    rw [List.getElem_drop] at hstarts
    refine ⟨Nat.succ_pos _, by omega, ?_, ?_⟩
    · rw [turnBoundary_drop (by omega), ← hstarts]
      congr 2
      omega
    · intro rest hsuffix hne' hboundary
      obtain ⟨pos, hpos, hle, rfl⟩ := exists_drop_of_suffix hsuffix hne'
      rw [List.length_drop]
      by_contra hlong
      have hlt : pos < remaining.length := by omega
      rw [turnBoundary_drop hlt] at hboundary
      refine hbefore (pos - 1) (by omega) ?_
      rw [List.getElem_drop, ← hboundary]
      congr 2
      omega
  · next hfind =>
    split at h
    · next hresults =>
      cases h
      refine ⟨hlength, le_refl _, by rw [List.drop_length]; exact hresults, ?_⟩
      intro rest hsuffix hne' hboundary
      obtain ⟨pos, hpos, hle, rfl⟩ := exists_drop_of_suffix hsuffix hne'
      rcases Nat.lt_or_eq_of_le hle with hlt | heq
      · rw [turnBoundary_drop hlt, startsTurn_of_findIdx?_none hfind hpos hlt] at hboundary
        cases hboundary
      · rw [heq, List.drop_length]
        exact Nat.zero_le _
    · cases h

variable {request : KiroRequest} {start currentSize targetSize : ℕ} {scan : TurnScan}

def requestSize (encoding : Encoding) (weighted : Bool) (request : KiroRequest)
    (history : List Message) : ℕ :=
  payloadSize weighted (serializeRequest encoding { request with history })

/-- What holds at each end of a turn: no cut before it meets the target. -/
structure Scanned (encoding : Encoding) (weighted : Bool) (request : KiroRequest)
    (start targetSize : ℕ) (scan : TurnScan) : Prop where
  start_le : start ≤ scan.turnEnd
  le_length : scan.turnEnd ≤ request.history.length
  items : scan.removedItemSize = (((request.history.drop start).take (scan.turnEnd - start)).map
    (itemSize encoding weighted)).sum
  estimate : request.history.take start ++ request.history.drop scan.turnEnd ≠ [] →
    scan.estimatedSize = requestSize encoding weighted request
      (request.history.take start ++ request.history.drop scan.turnEnd)
  cut : IsCut request.current.toolResults (request.history.drop start)
    (request.history.drop scan.turnEnd)
  short : ∀ rest, IsCut request.current.toolResults (request.history.drop start) rest →
    (request.history.drop scan.turnEnd).length < rest.length →
      targetSize < requestSize encoding weighted request (request.history.take start ++ rest)

/-- The scan ends here: the target is met, or no more can go. -/
def Ended (request : KiroRequest) (start targetSize : ℕ) (scan : TurnScan) : Prop :=
  scan.estimatedSize ≤ targetSize ∨
    ∀ rest, IsCut request.current.toolResults (request.history.drop start) rest →
      (request.history.drop scan.turnEnd).length ≤ rest.length

theorem estimate_eq (hsize : currentSize = requestSize encoding weighted request request.history)
    {turnEnd : ℕ} (hstart : start ≤ turnEnd) (hle : turnEnd ≤ request.history.length)
    (hne : request.history.take start ++ request.history.drop turnEnd ≠ []) :
    currentSize - jsonArrayPrefixReductionFromItemBytes request.history.length (turnEnd - start)
        (((request.history.drop start).take (turnEnd - start)).map
          (itemSize encoding weighted)).sum =
      requestSize encoding weighted request
        (request.history.take start ++ request.history.drop turnEnd) := by
  have hhistory : request.history = request.history.take start ++
      (request.history.drop start).take (turnEnd - start) ++ request.history.drop turnEnd := by
    have hrest : request.history.drop turnEnd =
        (request.history.drop start).drop (turnEnd - start) := by
      rw [List.drop_drop, Nat.add_sub_cancel' hstart]
    rw [List.append_assoc, hrest, List.take_append_drop, List.take_append_drop]
  have hlength : ((request.history.drop start).take (turnEnd - start)).length = turnEnd - start := by
    rw [List.length_take, List.length_drop]
    omega
  have hremoval := @payloadSize_removal encoding weighted request _ _ _ hhistory hne
  rw [hlength] at hremoval
  rw [hsize]
  unfold requestSize
  exact Nat.sub_eq_of_eq_add hremoval

theorem Scanned.step (h : Scanned encoding weighted request start targetSize scan)
    (hsize : currentSize = requestSize encoding weighted request request.history)
    (hover : targetSize < scan.estimatedSize) (hlt : scan.turnEnd < request.history.length)
    {relEnd : ℕ} (hend : relativeEnd request.current.toolResults
      (request.history.drop scan.turnEnd) = some relEnd) :
    0 < relEnd ∧ Scanned encoding weighted request start targetSize
      { turnEnd := scan.turnEnd + relEnd
        removedItemSize := scan.removedItemSize +
          (((request.history.drop scan.turnEnd).take relEnd).map (itemSize encoding weighted)).sum
        estimatedSize := currentSize - jsonArrayPrefixReductionFromItemBytes request.history.length
          (scan.turnEnd + relEnd - start) (scan.removedItemSize +
            (((request.history.drop scan.turnEnd).take relEnd).map
              (itemSize encoding weighted)).sum) } := by
  have hne : request.history.drop scan.turnEnd ≠ [] := by
    rw [Ne, List.drop_eq_nil_iff]
    omega
  obtain ⟨hpos, hle, hboundary, hnext⟩ := relativeEnd_some hend hne
  rw [List.length_drop] at hle
  have hstart := h.start_le
  have hitems : scan.removedItemSize + (((request.history.drop scan.turnEnd).take relEnd).map
      (itemSize encoding weighted)).sum =
        (((request.history.drop start).take (scan.turnEnd + relEnd - start)).map
          (itemSize encoding weighted)).sum := by
    have hsplit : scan.turnEnd + relEnd - start = scan.turnEnd - start + relEnd := by omega
    rw [h.items, hsplit, List.take_add, List.map_append, List.sum_append, List.drop_drop,
      Nat.add_sub_cancel' hstart]
  have hdrop : (request.history.drop scan.turnEnd).drop relEnd =
      request.history.drop (scan.turnEnd + relEnd) := List.drop_drop
  refine ⟨hpos, ⟨by dsimp only; omega, by dsimp only; omega, hitems, fun hleft => ?_, ⟨?_, ?_⟩, ?_⟩⟩
  · dsimp only
    rw [hitems]
    exact estimate_eq hsize (by omega) (by omega) hleft
  · exact (hdrop ▸ List.drop_suffix _ _).trans h.cut.suffix
  · exact .inr (hdrop ▸ hboundary)
  · intro rest hcut hlong
    dsimp only at hlong
    rcases Nat.lt_or_ge (request.history.drop scan.turnEnd).length rest.length with hold | hold
    · exact h.short rest hcut hold
    · -- Between the two ends there is no other.
      have hsuffix : rest <:+ request.history.drop scan.turnEnd :=
        List.suffix_of_suffix_length_le hcut.suffix h.cut.suffix hold
      have hsame : rest = request.history.drop scan.turnEnd := by
        by_contra hother
        have hstarts : turnBoundary request.current.toolResults rest = true := by
          refine hcut.boundary.resolve_left fun hall => hother ?_
          refine hsuffix.eq_of_length (Nat.le_antisymm hold ?_)
          rw [hall]
          exact h.cut.suffix.length_le
        have hshort := hnext rest hsuffix hother hstarts
        rw [List.length_drop] at hlong hshort
        omega
      rw [hsame, ← h.estimate (List.append_ne_nil_of_right_ne_nil _ hne)]
      exact hover

/-- A scan with as much fuel as entries are left does not run out of it. -/
theorem Scanned.scanTurns (h : Scanned encoding weighted request start targetSize scan)
    (hsize : currentSize = requestSize encoding weighted request request.history) (fuel : ℕ)
    (hfuel : request.history.length ≤ fuel + scan.turnEnd) :
    Scanned encoding weighted request start targetSize (scanTurns encoding weighted request.history
        start request.current.toolResults currentSize targetSize fuel scan) ∧
      Ended request start targetSize (PayloadGuard.scanTurns encoding weighted request.history
        start request.current.toolResults currentSize targetSize fuel scan) := by
  have hlast : ∀ scan : TurnScan, ¬scan.turnEnd < request.history.length →
      Ended request start targetSize scan := by
    intro scan hnot
    refine .inr fun rest _ => ?_
    rw [List.drop_eq_nil_iff.mpr (Nat.le_of_not_lt hnot)]
    exact Nat.zero_le _
  induction fuel generalizing scan with
  | zero => exact ⟨h, hlast scan (by omega)⟩
  | succ fuel ih =>
    unfold PayloadGuard.scanTurns
    split
    · next hgoes =>
      obtain ⟨hover, hlt⟩ := hgoes
      dsimp only
      split
      · next hnone =>
        refine ⟨h, .inr fun rest hcut => ?_⟩
        by_contra hshorter
        have hsuffix : rest <:+ request.history.drop scan.turnEnd :=
          List.suffix_of_suffix_length_le hcut.suffix h.cut.suffix (by omega)
        rcases hcut.boundary with hall | hstarts
        · rw [hall] at hshorter
          exact hshorter h.cut.suffix.length_le
        · rw [relativeEnd_none hnone hsuffix hstarts] at hshorter
          exact hshorter (le_refl _)
      · next relEnd hsome =>
        obtain ⟨hpos, hstep⟩ := h.step hsize hover hlt hsome
        rw [if_neg hpos.ne']
        exact ih hstep (by dsimp only; omega)
    · next hstops =>
      refine ⟨h, ?_⟩
      rcases Nat.lt_or_ge targetSize scan.estimatedSize with hover | hfits
      · exact hlast scan fun hlt => hstops ⟨hover, hlt⟩
      · exact .inl hfits

/-- What is left after the first fitting end of a turn, or after the last one. -/
structure FirstFit (encoding : Encoding) (weighted : Bool) (request : KiroRequest)
    (start targetSize : ℕ) (left : Trimmed) : Prop where
  cut : ∃ rest, IsCut request.current.toolResults (request.history.drop start) rest ∧
    left.history = request.history.take start ++ rest
  estimate : left.history ≠ [] →
    left.estimatedSize = requestSize encoding weighted request left.history
  shortest : ∀ rest, IsCut request.current.toolResults (request.history.drop start) rest →
    left.history.length < (request.history.take start ++ rest).length →
      targetSize < requestSize encoding weighted request (request.history.take start ++ rest)
  longest : left.estimatedSize ≤ targetSize ∨
    ∀ rest, IsCut request.current.toolResults (request.history.drop start) rest →
      left.history.length ≤ (request.history.take start ++ rest).length

theorem firstFit_trimHistoryTurnsFrom
    (hsize : currentSize = requestSize encoding weighted request request.history) (start : ℕ) :
    FirstFit encoding weighted request start targetSize (trimHistoryTurnsFrom encoding weighted
      request.history start request.current.toolResults currentSize targetSize) := by
  have hwhole := List.take_append_drop start request.history
  unfold trimHistoryTurnsFrom
  split
  · next hstays =>
    have hlong : ∀ rest, IsCut request.current.toolResults (request.history.drop start) rest →
        ¬request.history.length < (request.history.take start ++ rest).length := by
      intro rest hcut hlt
      have hle := hcut.suffix.length_le
      rw [← hwhole, List.length_append, List.length_append, hwhole] at hlt
      omega
    refine ⟨⟨_, ⟨List.suffix_refl _, .inl rfl⟩, hwhole.symm⟩, fun _ => hsize,
      fun rest hcut hlt => absurd hlt (hlong rest hcut), ?_⟩
    rcases hstays with hle | hfits
    · refine .inr fun rest _ => ?_
      dsimp only
      rw [List.take_of_length_le hle, List.length_append]
      exact Nat.le_add_right _ _
    · exact .inl hfits
  · next hgoes =>
    rw [not_or, Nat.not_le, Nat.not_le] at hgoes
    have hstart : Scanned encoding weighted request start targetSize ⟨start, 0, currentSize⟩ := by
      refine ⟨le_refl _, hgoes.1.le, by simp, fun _ => ?_, ⟨List.suffix_refl _, .inl rfl⟩, ?_⟩
      · dsimp only
        rw [hwhole]
        exact hsize
      · intro rest hcut hlt
        exact absurd hlt (Nat.not_lt.mpr hcut.suffix.length_le)
    obtain ⟨hscanned, hended⟩ := hstart.scanTurns hsize request.history.length (by omega)
    dsimp only
    generalize scanTurns encoding weighted request.history start request.current.toolResults
      currentSize targetSize request.history.length ⟨start, 0, currentSize⟩ = scan
      at hscanned hended
    refine ⟨⟨_, hscanned.cut, rfl⟩, hscanned.estimate, fun rest hcut hlt => ?_, ?_⟩
    · dsimp only at hlt
      rw [List.length_append, List.length_append] at hlt
      exact hscanned.short rest hcut (by omega)
    · refine hended.imp_right fun hlast rest hcut => ?_
      dsimp only
      rw [List.length_append, List.length_append]
      exact Nat.add_le_add_left (hlast rest hcut) _

/-- What whole-turn removals can leave: the pair of the system prompt goes last. -/
def IsRemoval (request : KiroRequest) (left : List Message) : Prop :=
  (∃ rest, IsCut request.current.toolResults
      (request.history.drop (syntheticSystemPrefixLen request.history)) rest ∧
    left = request.history.take (syntheticSystemPrefixLen request.history) ++ rest) ∨
  (left = [] ∧ request.current.toolResults = [])

structure BestRemoval (encoding : Encoding) (weighted : Bool) (request : KiroRequest)
    (targetSize : ℕ) (left : Trimmed) : Prop where
  removal : IsRemoval request left.history
  estimate : left.history ≠ [] →
    left.estimatedSize = requestSize encoding weighted request left.history
  shortest : ∀ other, IsRemoval request other → left.history.length < other.length →
    targetSize < requestSize encoding weighted request other
  longest : targetSize < requestSize encoding weighted request left.history →
    ∀ other, IsRemoval request other → left.history.length ≤ other.length

theorem exists_pair {history : List Message} (h : syntheticSystemPrefixLen history ≠ 0) :
    ∃ user assistant rest, history = .user user :: .assistant assistant :: rest ∧
      assistant.content = syntheticSystemAck ∧ syntheticSystemPrefixLen history = 2 := by
  unfold syntheticSystemPrefixLen at h
  split at h
  · next user assistant rest =>
    split at h
    · next hack => exact ⟨user, assistant, rest, rfl, hack, if_pos hack⟩
    · exact absurd rfl h
  · exact absurd rfl h

theorem isCut_nil (hresults : currentResults = []) (entries : List Message) :
    IsCut currentResults entries [] :=
  ⟨List.nil_suffix, .inr (by rw [hresults]; rfl)⟩

theorem IsCut.pair {user : UserMessage} {assistant : AssistantMessage}
    (h : IsCut currentResults [.user user, .assistant assistant] rest) :
    rest = [.user user, .assistant assistant] ∨ rest = [] ∧ currentResults = [] := by
  rcases h.boundary with hall | hstarts
  · exact .inl hall
  · rcases List.suffix_cons_iff.mp h.suffix with hall | hsuffix
    · exact .inl hall
    · rcases List.suffix_cons_iff.mp hsuffix with rfl | hnil
      · cases hstarts
      · rw [List.suffix_nil.mp hnil] at hstarts ⊢
        exact .inr ⟨rfl, List.isEmpty_iff.mp hstarts⟩

theorem FirstFit.bestRemoval {left : Trimmed}
    (h : FirstFit encoding weighted request (syntheticSystemPrefixLen request.history) targetSize
      left)
    (hdone : syntheticSystemPrefixLen request.history = 0 ∨ left.estimatedSize ≤ targetSize ∨
      syntheticSystemPrefixLen request.history < left.history.length) :
    BestRemoval encoding weighted request targetSize left := by
  refine ⟨.inl h.cut, h.estimate, ?_, ?_⟩
  · rintro other (⟨rest, hcut, rfl⟩ | ⟨rfl, -⟩) hlt
    · exact h.shortest rest hcut hlt
    · exact absurd hlt (Nat.not_lt_zero _)
  · intro hover other hother
    by_cases hnil : left.history = []
    · rw [hnil]
      exact Nat.zero_le _
    · have hestimate : ¬left.estimatedSize ≤ targetSize := by
        rw [h.estimate hnil]
        exact Nat.not_le.mpr hover
      have hlongest := h.longest.resolve_left hestimate
      rcases hother with ⟨rest, hcut, rfl⟩ | ⟨rfl, hresults⟩
      · exact hlongest rest hcut
      · have hall := hlongest [] (isCut_nil hresults _)
        rw [List.append_nil] at hall
        have hle := hall.trans (List.length_take_le _ _)
        rcases hdone with hzero | hfits | hlt
        · rwa [hzero] at hle
        · exact absurd hfits hestimate
        · exact absurd hle (Nat.not_le.mpr hlt)

theorem bestRemoval_trimHistoryToEstimatedBudget
    (hsize : currentSize = requestSize encoding weighted request request.history) :
    BestRemoval encoding weighted request targetSize (trimHistoryToEstimatedBudget encoding weighted
      request.history request.current.toolResults currentSize targetSize) := by
  have hfirst := @firstFit_trimHistoryTurnsFrom encoding weighted request currentSize targetSize
    hsize (syntheticSystemPrefixLen request.history)
  unfold trimHistoryToEstimatedBudget
  dsimp only
  generalize trimHistoryTurnsFrom encoding weighted request.history
    (syntheticSystemPrefixLen request.history) request.current.toolResults currentSize targetSize =
      first at hfirst
  split
  · next hdone => exact hfirst.bestRemoval hdone
  · next hgoes =>
    rw [not_or, not_or, Nat.not_le, Nat.not_lt] at hgoes
    obtain ⟨hpairLen, hover, hshort⟩ := hgoes
    obtain ⟨user, assistant, tail, hhistory, -, htwo⟩ := exists_pair hpairLen
    obtain ⟨rest, hcut, hleft⟩ := hfirst.cut
    -- The first pass has left the pair alone.
    have hpair : first.history = [.user user, .assistant assistant] := by
      rw [htwo, hhistory] at hleft
      rw [htwo, hleft] at hshort
      simp only [List.take_succ_cons, List.take_zero, List.cons_append, List.nil_append,
        List.length_cons] at hleft hshort
      rw [hleft, List.length_eq_zero_iff.mp (show rest.length = 0 by omega)]
    have hestimate := hfirst.estimate (by rw [hpair]; exact List.cons_ne_nil _ _)
    have hlast := @firstFit_trimHistoryTurnsFrom encoding weighted
      { request with history := first.history } first.estimatedSize targetSize hestimate 0
    dsimp only at hlast ⊢
    generalize trimHistoryTurnsFrom encoding weighted first.history 0 request.current.toolResults
      first.estimatedSize targetSize = last at hlast
    obtain ⟨rest', hcut', hleft'⟩ := hlast.cut
    dsimp only at hcut' hleft'
    rw [List.take_zero, List.nil_append] at hleft'
    rw [List.drop_zero, hpair] at hcut'
    rw [hestimate] at hover
    rcases hcut'.pair with hrest | ⟨hrest, hresults⟩
    · have hsame : last.history = first.history := by rw [hleft', hrest, hpair]
      refine ⟨.inl ⟨rest, hcut, hsame.trans hleft⟩, hlast.estimate, ?_, ?_⟩
      · rintro other (⟨next, hnext, rfl⟩ | ⟨rfl, -⟩) hlt
        · exact hfirst.shortest next hnext (hsame ▸ hlt)
        · exact absurd hlt (Nat.not_lt_zero _)
      · rintro - other (⟨next, hnext, rfl⟩ | ⟨rfl, hresults⟩)
        · rw [hsame, hpair, htwo, hhistory]
          simp
        · have hne : last.history ≠ [] := by
            rw [hsame, hpair]
            exact List.cons_ne_nil _ _
          have hover' : ¬last.estimatedSize ≤ targetSize := by
            rw [hlast.estimate hne, hsame]
            exact Nat.not_le.mpr hover
          exact (hlast.longest.resolve_left hover') [] (isCut_nil hresults _)
    · have hnil : last.history = [] := hleft'.trans hrest
      refine ⟨.inr ⟨hnil, hresults⟩, hlast.estimate, ?_, fun _ _ _ => hnil ▸ Nat.zero_le _⟩
      rintro other (⟨next, hnext, rfl⟩ | ⟨rfl, -⟩) hlt
      · rcases Nat.lt_or_ge first.history.length
          (request.history.take (syntheticSystemPrefixLen request.history) ++ next).length
          with hlong | hlong
        · exact hfirst.shortest next hnext hlong
        · have hsame : request.history.take (syntheticSystemPrefixLen request.history) ++ next =
              first.history := by
            rw [hpair, htwo, hhistory] at hlong ⊢
            have hnext : next = [] := by simpa using hlong
            rw [hnext]
            rfl
          rw [hsame]
          exact hover
      · exact absurd hlt (Nat.not_lt_zero _)

variable {history : List Message}

theorem scanTurns_bounds (fuel : ℕ) (hstart : start ≤ scan.turnEnd)
    (hle : scan.turnEnd ≤ history.length) :
    start ≤ (scanTurns encoding weighted history start currentResults currentSize targetSize fuel
        scan).turnEnd ∧
      (scanTurns encoding weighted history start currentResults currentSize targetSize fuel
        scan).turnEnd ≤ history.length := by
  induction fuel generalizing scan with
  | zero => exact ⟨hstart, hle⟩
  | succ fuel ih =>
    unfold scanTurns
    split
    · next hgoes =>
      dsimp only
      split
      · exact ⟨hstart, hle⟩
      · next relEnd hsome =>
        have hne : history.drop scan.turnEnd ≠ [] := by
          rw [Ne, List.drop_eq_nil_iff]
          omega
        obtain ⟨hpos, hrel, -, -⟩ := relativeEnd_some hsome hne
        rw [List.length_drop] at hrel
        rw [if_neg hpos.ne']
        exact ih (by dsimp only; omega) (by dsimp only; omega)
    · exact ⟨hstart, hle⟩

theorem removed_trimHistoryTurnsFrom (start : ℕ) :
    (trimHistoryTurnsFrom encoding weighted history start currentResults currentSize
        targetSize).history.length +
      (trimHistoryTurnsFrom encoding weighted history start currentResults currentSize
        targetSize).removed = history.length := by
  unfold trimHistoryTurnsFrom
  split
  · rfl
  · next hgoes =>
    rw [not_or, Nat.not_le] at hgoes
    obtain ⟨hfrom, hto⟩ := @scanTurns_bounds encoding weighted currentResults start currentSize
      targetSize ⟨start, 0, currentSize⟩ history history.length (le_refl _) hgoes.1.le
    dsimp only
    rw [List.length_append, List.length_take, List.length_drop]
    omega

theorem removed_trimHistoryToEstimatedBudget :
    (trimHistoryToEstimatedBudget encoding weighted history currentResults currentSize
        targetSize).history.length +
      (trimHistoryToEstimatedBudget encoding weighted history currentResults currentSize
        targetSize).removed = history.length := by
  have hfirst := @removed_trimHistoryTurnsFrom encoding weighted currentResults currentSize
    targetSize history (syntheticSystemPrefixLen history)
  unfold trimHistoryToEstimatedBudget
  dsimp only
  split
  · exact hfirst
  · have hlast := @removed_trimHistoryTurnsFrom encoding weighted currentResults
      (trimHistoryTurnsFrom encoding weighted history (syntheticSystemPrefixLen history)
        currentResults currentSize targetSize).estimatedSize targetSize
      (trimHistoryTurnsFrom encoding weighted history (syntheticSystemPrefixLen history)
        currentResults currentSize targetSize).history 0
    dsimp only
    omega

end KiroProxy.PayloadGuard
