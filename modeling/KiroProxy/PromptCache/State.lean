import KiroProxy.NestedMap
import KiroProxy.Text

/-!
# The table of the prompt cache

Entries are kept by scope and fingerprint, next to a counter of all of them. Expired entries
are skipped wherever they are read, so that the whole table is pruned at most once a second;
a write that overflows a bound first drops what has expired and then evicts the entries that
were used least recently. Times and durations are in nanoseconds.
-/

namespace KiroProxy.PromptCache

open NestedMap

@[ext] structure PromptCacheScope where
  conversationId : String
  routeNamespace : Option String
  deriving DecidableEq, Repr

structure PromptCacheEntry where
  expiresAt : ℤ
  ttl : ℕ
  lastUsedAt : ℤ
  cachedTokens : ℤ
  deriving DecidableEq, Repr

structure PromptCacheBounds where
  maxEntriesPerAccount : ℕ
  maxEntriesGlobal : ℕ
  entryTtl : ℕ
  estimatedBytesLimit : ℕ
  writeTtl : Option ℕ
  deriving DecidableEq, Repr

def estimatedEntryBytes : ℕ := 256

def usizeMax : ℕ := 2 ^ 64 - 1

def pruneExpiredMinInterval : ℤ := 1000000000

namespace PromptCacheBounds

def effectiveTtl (bounds : PromptCacheBounds) (ttl : ℕ) : ℕ :=
  min ttl bounds.entryTtl

def writeEntryTtl (bounds : PromptCacheBounds) (breakpointTtl : ℕ) : ℕ :=
  bounds.effectiveTtl (bounds.writeTtl.getD breakpointTtl)

def maxEntriesByBytes (bounds : PromptCacheBounds) : ℕ :=
  if bounds.estimatedBytesLimit = 0 then usizeMax
  else bounds.estimatedBytesLimit / estimatedEntryBytes

def globalEntryLimit (bounds : PromptCacheBounds) : ℕ :=
  min (if bounds.maxEntriesGlobal = 0 then usizeMax else bounds.maxEntriesGlobal)
    bounds.maxEntriesByBytes

end PromptCacheBounds

/-- A duration as signed time: one of more than `i64::MAX` milliseconds counts as zero. -/
def durationFromStd (ttl : ℕ) : ℤ :=
  if ttl ≤ (2 ^ 63 - 1) * 1000000 then ttl else 0

abbrev ScopeEntries := Groups PromptCacheScope Digest PromptCacheEntry

abbrev Cell := (PromptCacheScope × Digest) × PromptCacheEntry

def isLive (now : ℤ) (entry : PromptCacheEntry) : Bool := decide (now < entry.expiresAt)

/-- The order of eviction. -/
def rank (cell : Cell) : ℤ ×ₗ ℤ ×ₗ String ×ₗ WithBot String ×ₗ ℕ :=
  toLex (cell.2.lastUsedAt, toLex (cell.2.expiresAt, toLex (cell.1.1.conversationId,
    toLex ((cell.1.1.routeNamespace : WithBot String), cell.1.2.toNat))))

def totalCacheEntries (entriesByScope : ScopeEntries) : ℕ :=
  (entriesByScope.map fun group => group.2.length).sum

def pruneExpiredLocked (entriesByScope : ScopeEntries) (now : ℤ) : ScopeEntries :=
  retain (isLive now) entriesByScope

/-- Selecting the `removeCount` smallest candidates leaves all of them when there are no more;
the order in which the selected ones are removed does not matter. -/
def removeOldestEntriesLocked (entriesByScope : ScopeEntries) (removeCount : ℕ)
    (includeScope : PromptCacheScope → Bool) : ScopeEntries × ℕ :=
  if removeCount = 0 then (entriesByScope, 0)
  else
    let candidates := (cells entriesByScope).filter fun cell => includeScope cell.1.1
    removeCells ((smallest rank removeCount candidates).map Prod.fst) entriesByScope

/-- Unsigned subtraction that panics below zero. -/
def checkedSub (a b : ℕ) : Option ℕ :=
  if b ≤ a then some (a - b) else none

structure PromptCacheState where
  byScope : ScopeEntries
  totalEntries : ℕ
  lastPrunedAt : Option ℤ
  deriving DecidableEq, Repr

namespace PromptCacheState

def empty : PromptCacheState where
  byScope := []
  totalEntries := 0
  lastPrunedAt := none

def pruneExpired (s : PromptCacheState) (now : ℤ) : PromptCacheState :=
  let byScope := pruneExpiredLocked s.byScope now
  { byScope, totalEntries := totalCacheEntries byScope, lastPrunedAt := some now }

def pruneExpiredIfDue (s : PromptCacheState) (now : ℤ) : PromptCacheState :=
  if s.lastPrunedAt.any fun last => decide (last ≤ now) && decide (now - last < pruneExpiredMinInterval)
  then s else s.pruneExpired now

def insert (s : PromptCacheState) (scope : PromptCacheScope) (fingerprint : Digest)
    (entry : PromptCacheEntry) : PromptCacheState :=
  { s with
    byScope := insertCell scope fingerprint entry s.byScope
    totalEntries :=
      if (getCell scope fingerprint s.byScope).isNone then s.totalEntries + 1
      else s.totalEntries }

/-- The bound of the scope that was written. -/
def enforceScope (s : PromptCacheState) (writtenScope : PromptCacheScope)
    (bounds : PromptCacheBounds) (now : ℤ) : Option PromptCacheState :=
  match KeyedList.get writtenScope s.byScope with
  | none => some s
  | some entries =>
    if 0 < bounds.maxEntriesPerAccount ∧ bounds.maxEntriesPerAccount < entries.length then do
      let kept := entries.filter fun entry => isLive now entry.2
      let totalEntries ← checkedSub s.totalEntries (entries.length - kept.length)
      let overflow := kept.length - bounds.maxEntriesPerAccount
      let byScope := KeyedList.insert writtenScope kept s.byScope
      if 0 < overflow then
        let (byScope, removed) :=
          removeOldestEntriesLocked byScope overflow fun scope => scope == writtenScope
        let totalEntries ← checkedSub totalEntries removed
        some { s with byScope, totalEntries }
      else if kept.isEmpty then
        some { s with byScope := KeyedList.remove writtenScope byScope, totalEntries }
      else some { s with byScope, totalEntries }
    else some s

/-- The bound of the whole table. -/
def enforceGlobal (s : PromptCacheState) (bounds : PromptCacheBounds) (now : ℤ) :
    Option PromptCacheState :=
  let s := if bounds.globalEntryLimit < s.totalEntries then s.pruneExpired now else s
  if bounds.globalEntryLimit < s.totalEntries then do
    let overflow := s.totalEntries - bounds.globalEntryLimit
    let (byScope, removed) := removeOldestEntriesLocked s.byScope overflow fun _ => true
    let totalEntries ← checkedSub s.totalEntries removed
    some { s with byScope, totalEntries }
  else some s

def enforceBounds (s : PromptCacheState) (writtenScope : PromptCacheScope)
    (bounds : PromptCacheBounds) (now : ℤ) : Option PromptCacheState :=
  (s.enforceScope writtenScope bounds now).bind fun s => s.enforceGlobal bounds now

end PromptCacheState

end KiroProxy.PromptCache
