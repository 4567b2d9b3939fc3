import KiroProxy.Sse
import KiroProxy.Substitution
import KiroProxy.ToolNameRestore.Resolve

/-!
# Mapped tool names in the text of a response

The mapped names in a text are replaced by the names of the client, in the whole text or
in the deltas of a text block. The streaming side holds back the longest suffix that may
begin a mapped name, after the replacement.
-/

namespace KiroProxy.ToolNameRestore

open Matching Substitution

abbrev ToolNameMap := List (String × String)

/-- Longer mapped names first, then in the order of the strings. -/
def Precedes (a b : String × String) : Prop :=
  b.1.utf8ByteSize < a.1.utf8ByteSize ∨ a.1.utf8ByteSize = b.1.utf8ByteSize ∧ ¬ b.1 < a.1

instance : DecidableRel Precedes := fun a b => by
  unfold Precedes
  infer_instance

def textReplacements (toolNameMap : ToolNameMap) : List (Name Char) :=
  let pairs := toolNameMap.filter fun (mapped, original) =>
    mapped ≠ original ∧ stripHashSuffix mapped.toList ≠ mapped.toList
  (pairs.insertionSort Precedes).map fun (mapped, original) => (mapped.toList, original.toList)

def replacePairs (text : List Char) (pairs : List (Name Char)) : List Char :=
  pairs.foldl (fun output pair => if pair.1 <:+: output then replace pair output else output) text

def restoreToolNamesInText (toolNameMap : ToolNameMap) (text : List Char) : List Char :=
  if toolNameMap = [] ∨ ¬ toolHashMarker <:+: text then text
  else replacePairs text (textReplacements toolNameMap)

structure ToolNameTextRestorer where
  pairs : List (Name Char)
  textBlocks : List ℕ
  /-- The held text of each block, empty where nothing is held. -/
  pending : ℕ → List Char

namespace ToolNameTextRestorer

def new (toolNameMap : ToolNameMap) : Option ToolNameTextRestorer :=
  let pairs := textReplacements toolNameMap
  if pairs = [] then none else some ⟨pairs, [], fun _ => []⟩

/-- The longest proper prefix of a mapped name, of at most the given number of characters,
at the end of a text. A slice inside a character has no value. -/
def findHeld (text mapped : List Char) : ℕ → Option ℕ
  | 0 => some 0
  | k + 1 =>
    match mapped[k]? with
    | none => some 0
    | some c =>
      if c.utf8Size ≠ 1 then none
      else if mapped.take k <:+ text then some k
      else findHeld text mapped k

def heldSuffixLen (pairs : List (Name Char)) (text : List Char) : Option ℕ :=
  pairs.foldlM (fun held pair => (findHeld text pair.1 pair.1.length).map (max held)) 0

/-- The deltas that one event becomes. -/
def applyEvent (restorer : ToolNameTextRestorer) (event : SseEvent) :
    Option (ToolNameTextRestorer × List SseEvent) :=
  match event with
  | .contentBlockStart index block =>
    some ({ restorer with
      textBlocks := if block.type = .text then index :: restorer.textBlocks
        else restorer.textBlocks }, [event])
  | .contentBlockDelta index (.textDelta text) =>
    if index ∈ restorer.textBlocks then
      let combined := restorer.pending index ++ text
      if combined = [] then some (restorer, [event])
      else
        let restored := replacePairs combined restorer.pairs
        (heldSuffixLen restorer.pairs restored).map fun held =>
          let split := restored.length - held
          let sent := restored.take split
          ({ restorer with pending := Function.update restorer.pending index (restored.drop split) },
            if sent = [] then [] else [.contentBlockDelta index (.textDelta sent)])
    else some (restorer, [event])
  | .contentBlockStop index =>
    let pending := restorer.pending index
    some ({ restorer with pending := Function.update restorer.pending index [] },
      if pending = [] then [event]
      else [.contentBlockDelta index (.textDelta pending), event])
  | event => some (restorer, [event])

def apply (restorer : ToolNameTextRestorer) :
    List SseEvent → Option (ToolNameTextRestorer × List SseEvent)
  | [] => some (restorer, [])
  | event :: events => do
    let (restorer, output) ← restorer.applyEvent event
    let (restorer, outputs) ← restorer.apply events
    some (restorer, output ++ outputs)

end ToolNameTextRestorer

def restoreStream (toolNameMap : ToolNameMap) (events : List SseEvent) : Option (List SseEvent) :=
  match ToolNameTextRestorer.new toolNameMap with
  | none => some events
  | some restorer => (restorer.apply events).map Prod.snd

def textBlockEvents (index : ℕ) (chunks : List (List Char)) : List SseEvent :=
  .contentBlockStart index (.text []) ::
    (chunks.map fun chunk => .contentBlockDelta index (.textDelta chunk)) ++
    [.contentBlockStop index]

theorem marker_infix_of_strip {mapped : List Char} (h : stripHashSuffix mapped ≠ mapped) :
    toolHashMarker <:+: mapped := by
  unfold stripHashSuffix at h
  simp only at h
  split_ifs at h with hhex
  · split at h
    · next head hhead =>
      obtain ⟨marker, htake, hmarker⟩ := List.dropSuffix?_eq_some_iff.mp hhead
      rw [eq_of_beq hmarker] at htake
      have hocc : toolHashMarker <:+: mapped.take (mapped.length - toolHashHexLen) :=
        ⟨head, [], by rw [List.append_nil, htake]⟩
      exact hocc.trans (List.take_prefix _ _).isInfix
    · exact absurd rfl h
  · exact absurd rfl h

variable {toolNameMap : ToolNameMap}

theorem mem_textReplacements {pair : Name Char} (h : pair ∈ textReplacements toolNameMap) :
    ∃ entry ∈ toolNameMap, pair = (entry.1.toList, entry.2.toList) ∧
      toolHashMarker <:+: pair.1 := by
  obtain ⟨entry, hentry, rfl⟩ := List.mem_map.mp h
  rw [List.mem_insertionSort, List.mem_filter, decide_eq_true_eq] at hentry
  exact ⟨entry, hentry.1, rfl, marker_infix_of_strip hentry.2.2⟩

theorem textReplacements_ne_nil {pair : Name Char} (h : pair ∈ textReplacements toolNameMap) :
    pair.1 ≠ [] := by
  obtain ⟨entry, -, -, hmarker⟩ := mem_textReplacements h
  intro hnil
  rw [hnil] at hmarker
  exact absurd (List.infix_nil.mp hmarker) (by decide)

theorem nodup_textReplacements (h : (toolNameMap.map Prod.fst).Nodup) :
    (textReplacements toolNameMap).Nodup := by
  refine List.Nodup.map ?_ ((List.perm_insertionSort _ _).nodup_iff.mpr (h.of_map.filter _))
  rintro ⟨mapped, original⟩ ⟨mapped', original'⟩ heq
  rw [Prod.mk.injEq, String.toList_inj, String.toList_inj] at heq
  rw [heq.1, heq.2]

theorem replace_eq_self {pair : Name Char} {text : List Char} (h : ¬ pair.1 <:+: text) :
    replace pair text = text := by
  have hfree : ∀ p < text.length, ¬ OccursAt pair.1 (text ++ []) p := by
    intro p _ hocc
    rw [List.append_nil] at hocc
    exact h (exists_occursAt_iff.mp ⟨p, hocc⟩)
  have hreplace := replace_append_of_not_occursAt hfree
  rwa [List.append_nil, show replace pair [] = [] from rfl, List.append_nil] at hreplace

theorem replacePairs_eq_replaceAll (text : List Char) (pairs : List (Name Char)) :
    replacePairs text pairs = replaceAll pairs text := by
  induction pairs generalizing text with
  | nil => rfl
  | cons pair pairs ih =>
    have hstep : (if pair.1 <:+: text then replace pair text else text) = replace pair text := by
      split_ifs with h
      · rfl
      · exact (replace_eq_self h).symm
    calc replacePairs text (pair :: pairs)
        = replacePairs (if pair.1 <:+: text then replace pair text else text) pairs := rfl
      _ = replaceAll pairs (replace pair text) := by rw [hstep, ih]
      _ = replaceAll (pair :: pairs) text := rfl

theorem replaceAll_eq_self {pairs : List (Name Char)} {text : List Char}
    (h : ∀ pair ∈ pairs, ¬ pair.1 <:+: text) : replaceAll pairs text = text := by
  induction pairs with
  | nil => rfl
  | cons pair pairs ih =>
    rw [replaceAll, List.foldl_cons, replace_eq_self (h pair List.mem_cons_self)]
    exact ih fun pair' hpair' => h pair' (List.mem_cons_of_mem _ hpair')

theorem restoreToolNamesInText_eq (text : List Char) :
    restoreToolNamesInText toolNameMap text = replaceAll (textReplacements toolNameMap) text := by
  unfold restoreToolNamesInText
  split_ifs with h
  · refine (replaceAll_eq_self fun pair hpair hocc => ?_).symm
    obtain ⟨entry, hentry, -, hmarker⟩ := mem_textReplacements hpair
    rcases h with rfl | h
    · cases hentry
    · exact h (hmarker.trans hocc)
  · exact replacePairs_eq_replaceAll _ _

namespace ToolNameTextRestorer

def Ascii (pairs : List (Name Char)) : Prop :=
  ∀ pair ∈ pairs, ∀ c ∈ pair.1, c.utf8Size = 1

theorem findHeld_spec (text : List Char) {mapped : List Char}
    (hascii : ∀ c ∈ mapped, c.utf8Size = 1) {k : ℕ} (hk : k ≤ mapped.length) :
    ∃ held, findHeld text mapped k = some held ∧ held ≤ text.length ∧
      ∀ n < k, mapped.take n <:+ text → n ≤ held := by
  induction k with
  | zero => exact ⟨0, rfl, Nat.zero_le _, fun n hn => absurd hn (Nat.not_lt_zero n)⟩
  | succ k ih =>
    have hget : mapped[k]? = some mapped[k] := List.getElem?_eq_getElem hk
    have hsize : mapped[k].utf8Size = 1 := hascii _ (List.getElem_mem _)
    rw [findHeld, hget]
    simp only [hsize, ne_eq, not_true_eq_false, if_false]
    split_ifs with hsuffix
    · have hlen := hsuffix.length_le
      rw [List.length_take] at hlen
      exact ⟨k, rfl, by omega, fun n hn _ => Nat.le_of_lt_succ hn⟩
    · obtain ⟨held, hheld, hle, hmax⟩ := ih (by omega)
      refine ⟨held, hheld, hle, fun n hn hn' => hmax n ?_ hn'⟩
      have hne : n ≠ k := fun heq => hsuffix (heq ▸ hn')
      omega

variable {pairs : List (Name Char)}

theorem heldSuffixLen_spec (hascii : Ascii pairs) (text : List Char) :
    ∃ held, heldSuffixLen pairs text = some held ∧ HoldsBack (pairs.map Prod.fst) text held := by
  have hfold : ∀ (pairs : List (Name Char)) (start : ℕ), Ascii pairs → start ≤ text.length →
      ∃ held, pairs.foldlM (fun held pair => (findHeld text pair.1 pair.1.length).map (max held))
        start = some held ∧ start ≤ held ∧ HoldsBack (pairs.map Prod.fst) text held := by
    intro pairs
    induction pairs with
    | nil =>
      intro start _ hstart
      exact ⟨start, rfl, le_rfl, hstart, fun pat hpat => absurd hpat List.not_mem_nil⟩
    | cons pair pairs ih =>
      intro start hascii hstart
      obtain ⟨m, hm, hmle, hmax⟩ :=
        findHeld_spec text (hascii pair List.mem_cons_self) le_rfl
      obtain ⟨held, hheld, hle, hback⟩ :=
        ih (max start m) (fun pair' h => hascii pair' (List.mem_cons_of_mem _ h)) (by omega)
      refine ⟨held, ?_, by omega, hback.1, fun pat hpat n hn hsuffix => ?_⟩
      · rw [List.foldlM_cons, hm]
        exact hheld
      · rcases List.mem_cons.mp hpat with rfl | hpat
        · have := hmax n hn hsuffix
          omega
        · exact hback.2 pat hpat n hn hsuffix
  obtain ⟨held, hheld, -, hback⟩ := hfold pairs 0 hascii (Nat.zero_le _)
  exact ⟨held, hheld, hback⟩

variable {restorer : ToolNameTextRestorer} {index : ℕ}

/-- The held length as a total function. -/
def held (pairs : List (Name Char)) (text : List Char) : ℕ :=
  (heldSuffixLen pairs text).getD 0

theorem heldSuffixLen_eq_held (hascii : Ascii pairs) (text : List Char) :
    heldSuffixLen pairs text = some (held pairs text) := by
  obtain ⟨n, hn, -⟩ := heldSuffixLen_spec hascii text
  rw [held, hn, Option.getD_some]

theorem holdsBack_held (hascii : Ascii pairs) (text : List Char) :
    HoldsBack (pairs.map Prod.fst) text (held pairs text) := by
  obtain ⟨n, hn, hback⟩ := heldSuffixLen_spec hascii text
  rwa [held, hn, Option.getD_some]

theorem applyEvent_delta (hascii : Ascii restorer.pairs) (hblock : index ∈ restorer.textBlocks)
    (chunk sent : List Char) :
    ∃ restorer' output,
      restorer.applyEvent (.contentBlockDelta index (.textDelta chunk)) = some (restorer', output) ∧
      restorer'.pairs = restorer.pairs ∧ restorer'.textBlocks = restorer.textBlocks ∧
      feed restorer.pairs (held restorer.pairs) (sent, restorer.pending index) chunk =
        (sent ++ visibleText index output, restorer'.pending index) := by
  by_cases hempty : restorer.pending index ++ chunk = []
  · obtain ⟨hpending, rfl⟩ := List.append_eq_nil_iff.mp hempty
    refine ⟨restorer, [.contentBlockDelta index (.textDelta [])], ?_, rfl, rfl, ?_⟩
    · simp only [applyEvent, if_pos hblock, if_pos hempty]
    · simp [feed, hpending, replaceAll_nil, SseEvent.textFor]
  · let restored := replaceAll restorer.pairs (restorer.pending index ++ chunk)
    let split := restored.length - held restorer.pairs restored
    refine ⟨{ restorer with
        pending := Function.update restorer.pending index (restored.drop split) },
      if restored.take split = [] then []
        else [.contentBlockDelta index (.textDelta (restored.take split))], ?_, rfl, rfl, ?_⟩
    · simp only [applyEvent, if_pos hblock, if_neg hempty, replacePairs_eq_replaceAll,
        heldSuffixLen_eq_held hascii, Option.map_some]
      rfl
    · simp only [feed, Function.update_self, Prod.mk.injEq]
      refine ⟨?_, rfl⟩
      change sent ++ restored.take split = _
      split_ifs with hsent
      · rw [hsent, visibleText_nil]
      · simp [SseEvent.textFor]

theorem apply_deltas (hascii : Ascii restorer.pairs) (hblock : index ∈ restorer.textBlocks)
    (chunks : List (List Char)) (sent : List Char) :
    ∃ restorer' output,
      restorer.apply (chunks.map fun chunk => .contentBlockDelta index (.textDelta chunk)) =
        some (restorer', output) ∧
      chunks.foldl (feed restorer.pairs (held restorer.pairs)) (sent, restorer.pending index) =
        (sent ++ visibleText index output, restorer'.pending index) := by
  induction chunks generalizing restorer sent with
  | nil => exact ⟨restorer, [], rfl, by simp⟩
  | cons chunk chunks ih =>
    obtain ⟨restorer₁, output₁, h₁, hpairs, hblocks, hfeed⟩ :=
      applyEvent_delta hascii hblock chunk sent
    obtain ⟨restorer₂, output₂, h₂, hfeeds⟩ :=
      ih (hpairs ▸ hascii) (hblocks ▸ hblock) (sent ++ visibleText index output₁)
    refine ⟨restorer₂, output₁ ++ output₂, ?_, ?_⟩
    · rw [List.map_cons, apply, h₁]
      simp only [Option.bind_eq_bind, Option.bind_some, h₂]
    · rw [List.foldl_cons, hfeed, ← hpairs, hfeeds, visibleText_append, List.append_assoc]

theorem apply_append {restorer restorer₁ restorer₂ : ToolNameTextRestorer}
    {events events' output output' : List SseEvent}
    (h : restorer.apply events = some (restorer₁, output))
    (h' : restorer₁.apply events' = some (restorer₂, output')) :
    restorer.apply (events ++ events') = some (restorer₂, output ++ output') := by
  induction events generalizing restorer output with
  | nil =>
    cases h
    exact h'
  | cons event events ih =>
    rw [apply] at h
    obtain ⟨⟨restorer₀, output₀⟩, h₀, h⟩ := Option.bind_eq_some_iff.mp h
    obtain ⟨⟨restorer₃, output₃⟩, h₃, h⟩ := Option.bind_eq_some_iff.mp h
    cases h
    rw [List.cons_append, apply, h₀]
    simp only [Option.bind_eq_bind, Option.bind_some, ih h₃, List.append_assoc]

theorem apply_stop (restorer : ToolNameTextRestorer) (index : ℕ) :
    ∃ restorer' output, restorer.apply [.contentBlockStop index] = some (restorer', output) ∧
      visibleText index output = restorer.pending index := by
  refine ⟨{ restorer with pending := Function.update restorer.pending index [] },
    if restorer.pending index = [] then [.contentBlockStop index]
      else [.contentBlockDelta index (.textDelta (restorer.pending index)), .contentBlockStop index],
    ?_, ?_⟩
  · simp only [apply, applyEvent, Option.bind_eq_bind, Option.bind_some, List.append_nil]
  · split_ifs with hpending
    · simp [SseEvent.textFor, hpending]
    · simp [SseEvent.textFor]

theorem apply_textBlockEvents (hascii : Ascii pairs) (index : ℕ) (chunks : List (List Char)) :
    ∃ restorer' output,
      (⟨pairs, [], fun _ => []⟩ : ToolNameTextRestorer).apply (textBlockEvents index chunks) =
        some (restorer', output) ∧
      visibleText index output = (chunks.foldl (feed pairs (held pairs)) ([], [])).1 ++
        (chunks.foldl (feed pairs (held pairs)) ([], [])).2 := by
  let started : ToolNameTextRestorer := ⟨pairs, [index], fun _ => []⟩
  have hstart : (⟨pairs, [], fun _ => []⟩ : ToolNameTextRestorer).apply
      [.contentBlockStart index (.text [])] =
      some (started, [.contentBlockStart index (.text [])]) := rfl
  obtain ⟨restorer₁, output₁, h₁, hfeed⟩ :=
    apply_deltas (show Ascii started.pairs from hascii) (List.mem_singleton_self index) chunks []
  obtain ⟨restorer₂, output₂, h₂, hstop⟩ := apply_stop restorer₁ index
  refine ⟨restorer₂, _, apply_append (apply_append hstart h₁) h₂, ?_⟩
  have hfeed' : chunks.foldl (feed pairs (held pairs)) ([], []) =
      ([] ++ visibleText index output₁, restorer₁.pending index) := hfeed
  rw [hfeed', visibleText_append, visibleText_append, hstop]
  simp [SseEvent.textFor]

end ToolNameTextRestorer

theorem visibleText_textBlockEvents (index : ℕ) (chunks : List (List Char)) :
    visibleText index (textBlockEvents index chunks) = chunks.flatten := by
  have hdeltas : visibleText index
      (chunks.map fun chunk => .contentBlockDelta index (.textDelta chunk)) = chunks.flatten := by
    induction chunks with
    | nil => rfl
    | cons chunk chunks ih =>
      rw [List.map_cons, visibleText_cons, ih]
      simp [SseEvent.textFor]
  simp [textBlockEvents, hdeltas, SseEvent.textFor]

def CleanText (pairs : List (Name Char)) (text : List Char) : Prop :=
  ∃ pieces, Substitution.text pieces = text ∧ (∀ n, .name n ∈ pieces → n ∈ pairs) ∧
    Clean pairs pieces

def readMap : ToolNameMap := [("readHash3316348d", "read")]

def readPair : Name Char := ("readHash3316348d".toList, "read".toList)

def readPieces : List (Piece Char) := letters "use ".toList ++ [.name readPair]

theorem clean_readPieces : Clean [readPair] readPieces := by
  intro qs hqs n hn p hocc
  obtain rfl := List.mem_singleton.mp hn
  have hend := hocc.add_length_le (by decide)
  obtain ⟨rs, rfl, hrs⟩ := restores_letters_append hqs
  cases hrs with
  | keep _ hrs =>
    cases hrs
    have hp : ∀ p < 5, OccursAt readPair.1 (text readPieces) p → p = 4 := by decide
    have hlen : (text readPieces).length = 20 := by decide
    have hpat : readPair.1.length = 16 := by decide
    change p + readPair.1.length ≤ (text readPieces).length at hend
    obtain rfl := hp p (by omega) hocc
    exact .inl ⟨letters "use ".toList, [], rfl, rfl⟩
  | replace _ hrs =>
    cases hrs
    have hlen : (text (letters "use ".toList ++ (letters readPair.2 ++ []))).length = 8 := by decide
    have hpat : readPair.1.length = 16 := by decide
    omega

end KiroProxy.ToolNameRestore
