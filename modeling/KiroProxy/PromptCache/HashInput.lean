import KiroProxy.PromptCache.CanonicalJson
import KiroProxy.PromptCache.Profile

/-!
# What a fingerprint is computed from

The hasher of a profile takes the canonical text of one block after the other, each between its
length and a zero byte. Its input tells the normal forms of the blocks apart, and the input of a
prefix of the blocks is a prefix of the input.
-/

namespace KiroProxy.PromptCache

open Json JsonPrint PrefixCode

structure CacheBlock where
  value : Json
  tokens : ℤ
  ttl : Option ℕ
  isMessageEnd : Bool
  printed : FloatsPrinted value

/-- The hasher is known by what it was given. -/
def writeHashChunk (hasher : List UInt8) (chunk : List Char) : List UInt8 :=
  hasher ++ SessionId.bytes (Nat.toDigits 10 (SessionId.bytes chunk).length) ++ [0] ++
    SessionId.bytes chunk ++ [0]

structure ProfileState where
  hasher : List UInt8
  breakpoints : List ℕ
  lookupPoints : List PromptCacheLookupPoint
  cumulativeTokens : ℤ
  activeTtl : Option ℕ

def ProfileState.new : ProfileState := ⟨[], [], [], 0, none⟩

section

variable (sha256 : List UInt8 → Digest) (lookupEveryBlock : Bool)

/-- The turn of the loop for one block. The sum of the tokens is an `i32`. -/
def ProfileState.add (state : ProfileState) (block : CacheBlock) : ProfileState :=
  let hasher := writeHashChunk state.hasher (canonicalizeCacheValue block.value)
  let cumulativeTokens := (state.cumulativeTokens + block.tokens).bmod (2 ^ 32)
  let breakpointTtl :=
    if block.ttl.isSome then block.ttl else if block.isMessageEnd then state.activeTtl else none
  { hasher := hasher
    breakpoints := state.breakpoints ++ breakpointTtl.toList
    lookupPoints :=
      if lookupEveryBlock || breakpointTtl.isSome then
        state.lookupPoints ++ [⟨sha256 hasher, cumulativeTokens⟩]
      else state.lookupPoints
    cumulativeTokens := cumulativeTokens
    activeTtl := if block.ttl.isSome then block.ttl else state.activeTtl }

def profileState (blocks : List CacheBlock) : ProfileState :=
  blocks.foldl (ProfileState.add sha256 lookupEveryBlock) .new

def buildProfileWithBlocks (blocks : List CacheBlock) (totalInputTokens : ℤ) (cacheModel : String)
    (synthesizeStablePrefix suppressFirstTurnFallbackRead : Bool) : Option PromptCacheProfile :=
  if blocks.isEmpty then none
  else
    let state := profileState sha256 lookupEveryBlock blocks
    let breakpoints :=
      if state.breakpoints.isEmpty && synthesizeStablePrefix then [defaultPromptCacheTtl]
      else state.breakpoints
    if breakpoints.isEmpty then none
    else
      some
        { breakpoints := breakpoints
          lookupPoints := state.lookupPoints
          totalInputTokens := max totalInputTokens state.cumulativeTokens
          model := cacheModel
          suppressFirstTurnFallbackRead := suppressFirstTurnFallbackRead }

def hashChunk (block : CacheBlock) : List UInt8 :=
  lengthPrefixed (fun n => SessionId.bytes (Nat.toDigits 10 n)) 0
    (SessionId.bytes (canonicalizeCacheValue block.value))

theorem writeHashChunk_eq (hasher : List UInt8) (block : CacheBlock) :
    writeHashChunk hasher (canonicalizeCacheValue block.value) = hasher ++ hashChunk block := by
  unfold writeHashChunk hashChunk lengthPrefixed
  simp only [List.append_assoc, List.cons_append, List.nil_append]

theorem hasher_foldl (state : ProfileState) (blocks : List CacheBlock) :
    (blocks.foldl (ProfileState.add sha256 lookupEveryBlock) state).hasher =
      state.hasher ++ blocks.flatMap hashChunk := by
  induction blocks generalizing state with
  | nil => exact (List.append_nil _).symm
  | cons block blocks ih =>
    rw [List.foldl_cons, ih, List.flatMap_cons, ← List.append_assoc]
    congr 1
    exact writeHashChunk_eq _ _

theorem hasher_profileState (blocks : List CacheBlock) :
    (profileState sha256 lookupEveryBlock blocks).hasher = blocks.flatMap hashChunk :=
  hasher_foldl sha256 lookupEveryBlock .new blocks

end

theorem bytes_injective : Function.Injective SessionId.bytes := by
  intro cs ds h
  have hencode : cs.utf8Encode = ds.utf8Encode := congrArg List.toByteArray h
  rw [← String.toByteArray_ofList, ← String.toByteArray_ofList, String.toByteArray_inj] at hencode
  exact String.ofList_injective hencode

theorem zero_not_mem_bytes_toDigits (n : ℕ) : 0 ∉ SessionId.bytes (Nat.toDigits 10 n) := by
  intro hmem
  obtain ⟨c, hc, hzero⟩ := List.mem_flatMap.mp hmem
  obtain ⟨hlow, hhigh⟩ := Char.isDigit_iff_toNat.mp (isDigit_of_mem_toDigits hc)
  have hlow : 48 ≤ c.val.toNat := hlow
  have hhigh : c.val.toNat ≤ 57 := hhigh
  have hsize : c.utf8Size = 1 :=
    Char.utf8Size_eq_one_iff.mpr (UInt32.le_iff_toNat_le.mpr (hhigh.trans (by decide)))
  rw [String.utf8EncodeChar_eq_singleton hsize, List.mem_singleton] at hzero
  have hbyte := congrArg UInt8.toNat hzero
  rw [UInt32.toNat_toUInt8, UInt8.toNat_zero] at hbyte
  omega

theorem isPrefixCode_lengthPrefixed_bytes :
    IsPrefixCode (lengthPrefixed (fun n => SessionId.bytes (Nat.toDigits 10 n)) 0) :=
  isPrefixCode_lengthPrefixed (bytes_injective.comp toDigits_injective) zero_not_mem_bytes_toDigits

theorem flatMap_hashChunk_eq_iff (blocks blocks' : List CacheBlock) :
    blocks.flatMap hashChunk = blocks'.flatMap hashChunk ↔
      blocks.map (fun block => canonicalizeCacheValue block.value) =
        blocks'.map fun block => canonicalizeCacheValue block.value := by
  have hflat (blocks : List CacheBlock) :
      blocks.flatMap hashChunk =
        ((blocks.map fun block => canonicalizeCacheValue block.value).map SessionId.bytes).flatMap
          (lengthPrefixed (fun n => SessionId.bytes (Nat.toDigits 10 n)) 0) := by
    rw [List.flatMap_map, List.flatMap_map]
    rfl
  have hne (word : List UInt8) :
      lengthPrefixed (fun n => SessionId.bytes (Nat.toDigits 10 n)) 0 word ≠ [] := by
    intro hnil
    cases (List.append_eq_nil_iff.mp hnil).2
  rw [hflat, hflat]
  constructor
  · intro h
    have hwords := isPrefixCode_lengthPrefixed_bytes.flatMap_injective hne h
    exact List.map_injective_iff.mpr bytes_injective hwords
  · intro h
    rw [h]

/-- The input of the hasher says exactly which normal forms the blocks have, and a prefix of the
blocks has a prefix of the input. -/
theorem hasher_eq_iff (sha256 : List UInt8 → Digest) (every every' : Bool)
    (blocks blocks' : List CacheBlock) :
    ((profileState sha256 every blocks).hasher = (profileState sha256 every' blocks').hasher ↔
      List.Forall₂ (fun block block' => normalize block.value = normalize block'.value)
        blocks blocks') ∧
    ∀ more, (profileState sha256 every blocks).hasher <+:
      (profileState sha256 every' (blocks ++ more)).hasher := by
  refine ⟨?_, fun more => ?_⟩
  · rw [hasher_profileState, hasher_profileState, flatMap_hashChunk_eq_iff, ← List.forall₂_eq_eq_eq,
      List.forall₂_map_left_iff, List.forall₂_map_right_iff]
    simp only [canonicalizeCacheValue_eq_iff (CacheBlock.printed _) (CacheBlock.printed _)]
  · rw [hasher_profileState, hasher_profileState, List.flatMap_append]
    exact List.prefix_append _ _

end KiroProxy.PromptCache
