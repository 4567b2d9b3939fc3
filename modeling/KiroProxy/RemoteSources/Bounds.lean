import KiroProxy.RemoteSources.Download

/-!
# Bounds on remote sources

Whatever URLs, name servers and servers do, at no moment of a run has the client connected to a
blocked address, sent too many requests or kept or inserted too much.
-/

namespace KiroProxy.RemoteSources

open Fallible Fetch

def Event.sends : Event → ℕ
  | .sent _ => 1
  | _ => 0

def Event.keeps : Event → ℕ
  | .kept bytes => bytes
  | _ => 0

def Event.inserts : Event → ℕ
  | .inserted bytes => bytes
  | _ => 0

def total (weight : Event → ℕ) (log : List Event) : ℕ := (log.map weight).sum

/-- The bytes kept since the last source began. -/
def keptOfSource : List Event → ℕ
  | [] => 0
  | .source :: _ => 0
  | event :: log => event.keeps + keptOfSource log

theorem total_cons (weight : Event → ℕ) (event : Event) (log : List Event) :
    total weight (event :: log) = weight event + total weight log := by
  rw [total, List.map_cons, List.sum_cons, total]

theorem keptOfSource_cons {event : Event} (h : event ≠ .source) (log : List Event) :
    keptOfSource (event :: log) = event.keeps + keptOfSource log := by
  cases event <;> first | rfl | exact absurd rfl h

def RemoteMaterializationBudget.Kept (budget : RemoteMaterializationBudget) : Prop :=
  budget.limits = {} ∧ budget.httpAttempts ≤ budget.limits.maxHttpAttempts ∧
    budget.downloadedBytes ≤ budget.limits.maxDownloadedBytes ∧
    budget.materializedBytes ≤ budget.limits.maxMaterializedBytes

/-- What one request may do. -/
structure Within (log : List Event) : Prop where
  connected : ∀ addr, .connected addr ∈ log → isBlockedIp addr = false
  sent : total Event.sends log ≤ maxRemoteMultimodalHttpAttempts
  kept : total Event.keeps log ≤ maxRemoteMultimodalTotalBytes
  keptOfSource : keptOfSource log ≤ maxRemoteMultimodalBytes
  inserted : total Event.inserts log ≤ maxRemoteMultimodalMaterializedBytes
  charged : ∀ budget, .charged budget ∈ log → budget.Kept

/-- What was done and what is reserved for the next steps is charged to the budget. -/
structure Accounted (sends keeps inserts : ℕ) (w : World) : Prop where
  within : ∀ seen, seen <:+ w.log → Within seen
  budget : w.budget.Kept
  sent : total Event.sends w.log + sends ≤ w.budget.httpAttempts
  kept : total Event.keeps w.log + keeps ≤ w.budget.downloadedBytes
  inserted : total Event.inserts w.log + inserts ≤ w.budget.materializedBytes

abbrev Settled : World → Prop := Accounted 0 0 0

variable {sends keeps inserts : ℕ} {w : World}

theorem Accounted.settled (h : Accounted sends keeps inserts w) : Settled w :=
  ⟨h.within, h.budget, (Nat.le_add_right _ _).trans h.sent, (Nat.le_add_right _ _).trans h.kept,
    (Nat.le_add_right _ _).trans h.inserted⟩

theorem Accounted.log_within (h : Accounted sends keeps inserts w) : Within w.log :=
  h.within w.log (List.suffix_refl _)

/-- An event that the reservations cover. -/
theorem Accounted.note {event : Event}
    (h : Accounted (sends + event.sends) (keeps + event.keeps) (inserts + event.inserts) w)
    (hconnected : ∀ addr, event = .connected addr → isBlockedIp addr = false)
    (hcharged : ∀ budget, event = .charged budget → budget.Kept)
    (hsource : event.keeps + RemoteSources.keptOfSource w.log ≤ maxRemoteMultimodalBytes) :
    Accounted sends keeps inserts { w with log := event :: w.log } := by
  obtain ⟨hlimits, hattempts, hdownloaded, hmaterialized⟩ := h.budget
  rw [hlimits] at hattempts hdownloaded hmaterialized
  have hlog := h.log_within
  have hsent := h.sent
  have hkept := h.kept
  have hinserted := h.inserted
  have hwithin : Within (event :: w.log) := by
    refine ⟨fun addr hmem => ?_, ?_, ?_, ?_, ?_, fun budget hmem => ?_⟩
    · rcases List.mem_cons.mp hmem with heq | hmem
      · exact hconnected addr heq.symm
      · exact hlog.connected addr hmem
    · rw [total_cons]
      exact le_trans (by omega) hattempts
    · rw [total_cons]
      exact le_trans (by omega) hdownloaded
    · cases event with
      | source => exact Nat.zero_le _
      | _ => exact hsource
    · rw [total_cons]
      exact le_trans (by omega) hmaterialized
    · rcases List.mem_cons.mp hmem with heq | hmem
      · exact hcharged budget heq.symm
      · exact hlog.charged budget hmem
  refine ⟨fun seen hseen => ?_, h.budget, ?_, ?_, ?_⟩
  · rcases List.suffix_cons_iff.mp hseen with rfl | hseen
    · exact hwithin
    · exact h.within seen hseen
  · simp only [total_cons]
    omega
  · simp only [total_cons]
    omega
  · simp only [total_cons]
    omega

section Budget

variable {budget next : RemoteMaterializationBudget} {blockType : String} {amount : ℕ}

structure Reserves (budget next : RemoteMaterializationBudget) (sends keeps inserts : ℕ) :
    Prop where
  kept : next.Kept
  sent : next.httpAttempts = budget.httpAttempts + sends
  downloaded : next.downloadedBytes = budget.downloadedBytes + keeps
  materialized : next.materializedBytes = budget.materializedBytes + inserts

theorem eq_add_of_checkedAdd {a b sum : ℕ} (h : checkedAdd a b = some sum) : sum = a + b := by
  unfold checkedAdd at h
  split_ifs at h
  exact (Option.some.inj h).symm

theorem reserves_httpAttempt (hkept : budget.Kept) (h : budget.reserveHttpAttempt = .ok next) :
    Reserves budget next 1 0 0 := by
  unfold RemoteMaterializationBudget.reserveHttpAttempt at h
  dsimp only at h
  split_ifs at h with hlimit
  cases h
  exact ⟨⟨hkept.1, not_le.mp hlimit, hkept.2.2⟩, rfl, rfl, rfl⟩

theorem reserves_downloadedBytes (hkept : budget.Kept)
    (h : budget.reserveDownloadedBytes blockType amount = .ok next) :
    Reserves budget next 0 amount 0 := by
  unfold RemoteMaterializationBudget.reserveDownloadedBytes at h
  dsimp only at h
  split at h
  case h_1 => cases h
  case h_2 sum hsum =>
    split_ifs at h with hlimit
    cases h
    exact ⟨⟨hkept.1, hkept.2.1, not_lt.mp hlimit, hkept.2.2.2⟩, rfl, eq_add_of_checkedAdd hsum, rfl⟩

theorem reserves_materializedBytes (hkept : budget.Kept)
    (h : budget.reserveMaterializedBytes blockType amount = .ok next) :
    Reserves budget next 0 0 amount := by
  unfold RemoteMaterializationBudget.reserveMaterializedBytes at h
  dsimp only at h
  split at h
  case h_1 => cases h
  case h_2 sum hsum =>
    split_ifs at h with hlimit
    cases h
    exact ⟨⟨hkept.1, hkept.2.1, hkept.2.2.1, not_lt.mp hlimit⟩, rfl, rfl, eq_add_of_checkedAdd hsum⟩

end Budget

/-- The source at hand has kept so many bytes. -/
def Reserved (sends keeps inserts size : ℕ) (w : World) : Prop :=
  Accounted sends keeps inserts w ∧ keptOfSource w.log = size

abbrev AtSize : ℕ → World → Prop := Reserved 0 0 0

variable {size : ℕ}

theorem Reserved.settled (h : Reserved sends keeps inserts size w) : Settled w := h.1.settled

theorem ensures_note {event : Event} (hsource : event ≠ .source)
    (hconnected : ∀ addr, event = .connected addr → isBlockedIp addr = false)
    (hcharged : ∀ budget, event ≠ .charged budget)
    (hsize : event.keeps + size ≤ maxRemoteMultimodalBytes) :
    Ensures (Reserved event.sends event.keeps event.inserts size) (note event)
      (fun _ => AtSize (event.keeps + size)) Settled := by
  refine ensures_modify fun w hw => ?_
  obtain ⟨haccounted, hkept⟩ := hw
  constructor
  · refine Accounted.note ?_ hconnected (fun budget heq => absurd heq (hcharged budget)) ?_
    · simpa only [Nat.zero_add] using haccounted
    · rw [hkept]
      exact hsize
  · rw [keptOfSource_cons hsource, hkept]

theorem ensures_note_source : Ensures Settled (note .source) (fun _ => AtSize 0) Settled := by
  refine ensures_modify fun w hw => ⟨?_, rfl⟩
  exact Accounted.note hw (fun _ h => by cases h) (fun _ h => by cases h)
    ((Nat.zero_add _).trans_le hw.log_within.keptOfSource)

theorem ensures_charge
    {reserve : RemoteMaterializationBudget → Except String RemoteMaterializationBudget}
    (hreserve : ∀ budget next, budget.Kept → reserve budget = .ok next →
      Reserves budget next sends keeps inserts) :
    Ensures (AtSize size) (charge reserve) (fun _ => Reserved sends keeps inserts size) Settled := by
  have hget : Ensures (AtSize size) (get : Fetch World) (fun w w' => AtSize size w' ∧ w = w')
      Settled := ensures_get fun w hw => ⟨hw, rfl⟩
  refine Ensures.bind hget fun w => ?_
  cases hnext : reserve w.budget with
  | error e => exact ensures_throw fun w' hw => hw.1.settled
  | ok next =>
    refine ensures_modify fun w' hw => ?_
    obtain ⟨⟨haccounted, hkept⟩, rfl⟩ := hw
    have h := hreserve w.budget next haccounted.budget hnext
    have hcharged : Accounted sends keeps inserts { w with budget := next } :=
      ⟨haccounted.within, h.kept, h.sent ▸ Nat.add_le_add_right haccounted.sent _,
        h.downloaded ▸ Nat.add_le_add_right haccounted.kept _,
        h.materialized ▸ Nat.add_le_add_right haccounted.inserted _⟩
    refine ⟨@Accounted.note _ _ _ _ (.charged next) hcharged (fun _ heq => by cases heq) ?_ ?_, ?_⟩
    · intro budget heq
      cases heq
      exact h.kept
    · exact (Nat.zero_add _).trans_le haccounted.log_within.keptOfSource
    · rw [keptOfSource_cons (by simp), hkept]
      exact Nat.zero_add _

theorem ensures_check {P : World → Prop} {result : Except String Unit} {word : String → String}
    (hP : ∀ w, P w → Settled w) :
    Ensures P (check result word) (fun _ w => P w ∧ result = .ok ()) Settled := by
  cases result with
  | ok _ => exact ensures_pure fun w hw => ⟨hw, rfl⟩
  | error e => exact ensures_throw hP

theorem ensures_connectTo {addrs : List IpAddr} (h : ∀ addr ∈ addrs, isBlockedIp addr = false)
    (hsize : size ≤ maxRemoteMultimodalBytes) :
    Ensures (AtSize size) (connectTo addrs) (fun _ => AtSize size) Settled := by
  induction addrs with
  | nil => exact ensures_pure fun w hw => hw
  | cons addr addrs ih =>
    obtain ⟨hhead, htail⟩ := List.forall_mem_cons.mp h
    have hnote := @ensures_note size (.connected addr) (by simp)
      (fun addr' heq => by cases heq; exact hhead) (by simp) (by simpa [Event.keeps] using hsize)
    refine Ensures.bind hnote fun _ => ?_
    have hzero : Event.keeps (.connected addr) + size = size := Nat.zero_add size
    rw [hzero]
    exact ih htail

theorem not_blocked_of_safeResolve {answer : Except String (List IpAddr)} {addrs : List IpAddr}
    (h : safeResolve answer = .ok addrs) : ∀ addr ∈ addrs, isBlockedIp addr = false := by
  cases answer with
  | error e => cases h
  | ok answered =>
    unfold safeResolve at h
    dsimp only at h
    split_ifs at h with hempty hblocked
    cases h
    intro addr hmem
    rw [Bool.not_eq_true, List.any_eq_false] at hblocked
    exact Bool.eq_false_iff.mpr (hblocked addr hmem)

section Download

variable {env : Env} {blockType : String}

theorem ensures_resolveHost {lookups : List Lookup} (hsize : size ≤ maxRemoteMultimodalBytes) :
    Ensures (AtSize size) (resolveHost env blockType lookups) (fun _ => AtSize size) Settled := by
  induction lookups with
  | nil => exact ensures_pure fun w hw => hw
  | cons lookup rest ih =>
    rw [resolveHost]
    cases hsafe : safeResolve lookup.answer with
    | error e => exact ensures_throw fun w hw => hw.settled
    | ok addrs =>
      refine Ensures.bind (ensures_connectTo (fun addr hmem => ?_) hsize) fun _ => ih
      obtain ⟨place, -, hplace⟩ := List.mem_filterMap.mp hmem
      exact not_blocked_of_safeResolve hsafe addr (List.mem_of_getElem? hplace)

variable {url : String} {parsed : Url}

theorem not_blocked_of_ensureSafe (hsafe : env.ensureSafeRemoteUrl url = .ok ())
    (hparse : env.parseUrl url = .ok parsed) :
    ∀ addr, parsed.hostStr.bind (env.parsedHostIp parsed) = some addr → isBlockedIp addr = false := by
  intro addr haddr
  obtain ⟨host, hhost, hip⟩ := Option.bind_eq_some_iff.mp haddr
  rw [Env.ensureSafeRemoteUrl, hparse] at hsafe
  dsimp only at hsafe
  rw [hhost] at hsafe
  dsimp only at hsafe
  split_ifs at hsafe with hscheme hcredentials hport hblocked hrange
  rw [hip, Option.any_some] at hrange
  exact Bool.eq_false_iff.mpr hrange

theorem ensures_connectHost {lookups : List Lookup} (hsafe : env.ensureSafeRemoteUrl url = .ok ())
    (hparse : env.parseUrl url = .ok parsed) (hsize : size ≤ maxRemoteMultimodalBytes) :
    Ensures (AtSize size) (connectHost env blockType parsed lookups) (fun _ => AtSize size)
      Settled := by
  rw [connectHost]
  cases hip : parsed.hostStr.bind (env.parsedHostIp parsed) with
  | none => exact ensures_resolveHost hsize
  | some addr =>
    refine ensures_connectTo (fun addr' hmem => ?_) hsize
    obtain rfl := List.mem_singleton.mp hmem
    exact not_blocked_of_ensureSafe hsafe hparse _ hip

theorem ensures_send (hsafe : env.ensureSafeRemoteUrl url = .ok ())
    (hsize : size ≤ maxRemoteMultimodalBytes) :
    Ensures (Reserved 1 0 0 size) (send env blockType url) (fun _ => AtSize size) Settled := by
  have hget : Ensures (Reserved 1 0 0 size) (get : Fetch World) (fun _ => Reserved 1 0 0 size)
      Settled := ensures_get fun w hw => hw
  have hnote := @ensures_note size (.sent url) (by simp) (by simp) (by simp)
    ((Nat.zero_add size).trans_le hsize)
  have hzero : Event.keeps (.sent url) + size = size := Nat.zero_add size
  rw [hzero] at hnote
  refine Ensures.bind hget fun w => Ensures.bind hnote fun _ => ?_
  cases hparse : env.parseUrl url with
  | error e => exact ensures_throw fun w hw => hw.settled
  | ok parsed =>
    refine Ensures.bind (ensures_connectHost hsafe hparse hsize) fun _ => ?_
    cases (env.exchange (w.log.countP Event.isSent)).response with
    | error e => exact ensures_throw fun w hw => hw.settled
    | ok response => exact ensures_pure fun w hw => hw

theorem ensures_nextUrl {response : Response} :
    Ensures (AtSize size) (nextUrl env blockType parsed response) (fun _ => AtSize size)
      Settled := by
  rw [nextUrl]
  cases response.location with
  | none => exact ensures_throw fun w hw => hw.settled
  | some location =>
    dsimp only
    cases env.join parsed location with
    | error e => exact ensures_throw fun w hw => hw.settled
    | ok next => exact ensures_pure fun w hw => hw

theorem ensures_follow {left redirectCount : ℕ} (hsize : size ≤ maxRemoteMultimodalBytes) :
    Ensures (AtSize size) (follow env blockType left redirectCount url) (fun _ => AtSize size)
      Settled := by
  induction left generalizing redirectCount url with
  | zero => exact ensures_pure fun w hw => hw
  | succ left ih =>
    rw [follow]
    refine Ensures.bind (ensures_check fun w hw => hw.settled) fun _ => ?_
    by_cases hsafe : env.ensureSafeRemoteUrl url = .ok ()
    · have hcharge : Ensures (AtSize size) (charge RemoteMaterializationBudget.reserveHttpAttempt)
          (fun _ => Reserved 1 0 0 size) Settled :=
        ensures_charge fun _ _ hkept h => reserves_httpAttempt hkept h
      refine Ensures.bind (hcharge.mono (fun w hw => hw.1) fun _ _ hw => hw) fun _ => ?_
      refine Ensures.bind (ensures_send hsafe hsize) fun candidate => ?_
      split_ifs
      · exact ensures_throw fun w hw => hw.settled
      · exact Ensures.bind ensures_nextUrl fun next => ih
      · exact ensures_pure fun w hw => hw
    · exact fun w hw => absurd hw.2 hsafe

theorem ensures_readLimitedResponseBody {chunks : List (Except String Bytes)} {bytes : Bytes} :
    Ensures (AtSize bytes.length) (readLimitedResponseBody blockType chunks bytes)
      (fun body => AtSize body.length) Settled := by
  induction chunks generalizing bytes with
  | nil => exact ensures_pure fun w hw => hw
  | cons chunk chunks ih =>
    cases chunk with
    | error e => exact ensures_throw fun w hw => hw.settled
    | ok chunk =>
      rw [readLimitedResponseBody]
      split_ifs with hfits
      · exact ensures_throw fun w hw => hw.settled
      · have hlength : chunk.length + bytes.length ≤ maxRemoteMultimodalBytes := by
          cases hsum : checkedAdd bytes.length chunk.length with
          | none => exact absurd (by rw [hsum]; rfl) hfits
          | some sum =>
            rw [hsum, Option.any_some, decide_eq_false_iff_not, not_not,
              eq_add_of_checkedAdd hsum, Nat.add_comm] at hfits
            exact hfits
        have hcharge : Ensures (AtSize bytes.length)
            (charge fun budget => budget.reserveDownloadedBytes blockType chunk.length)
            (fun _ => Reserved 0 chunk.length 0 bytes.length) Settled :=
          ensures_charge fun _ _ hkept h => reserves_downloadedBytes hkept h
        have hnote := @ensures_note bytes.length (.kept chunk.length) (by simp) (by simp) (by simp)
          hlength
        refine Ensures.bind hcharge fun _ => Ensures.bind hnote fun _ => ?_
        have happend : Event.keeps (.kept chunk.length) + bytes.length = (bytes ++ chunk).length := by
          rw [List.length_append]
          exact Nat.add_comm _ _
        rw [happend]
        exact ih

theorem utf8Size_base64Char (n : ℕ) : (base64Char n).utf8Size = 1 := by
  have hall : ∀ i < 64, (base64Alphabet.getD i '=').utf8Size = 1 := by decide +kernel
  exact hall _ (Nat.mod_lt n (by decide))

theorem utf8ByteSize_base64Encode (bytes : Bytes) :
    (base64Encode bytes).utf8ByteSize = (bytes.length + 2) / 3 * 4 := by
  rw [base64Encode, utf8ByteSize_ofList]
  have hpad : '='.utf8Size = 1 := by decide
  fun_induction base64Chars bytes with
  | case1 => rfl
  | case2 a => simp [utf8Size_base64Char, hpad, utf8Length]
  | case3 a b => simp [utf8Size_base64Char, hpad, utf8Length]
  | case4 a b c rest n ih =>
    simp only [utf8Length_cons, utf8Size_base64Char, ih, List.length_cons]
    omega

theorem base64EncodedLen_spec {decodedLen len : ℕ} (h : base64EncodedLen decodedLen = .ok len) :
    len = (decodedLen + 2) / 3 * 4 := by
  unfold base64EncodedLen at h
  split at h
  case h_1 sum hsum =>
    cases h
    obtain ⟨value, hvalue, hmul⟩ := Option.bind_eq_some_iff.mp hsum
    unfold checkedMul at hmul
    split_ifs at hmul
    rw [← Option.some.inj hmul, eq_add_of_checkedAdd hvalue]
  case h_2 => cases h

theorem ensures_encodeBody {mediaType : String} {bytes : Bytes} :
    Ensures (AtSize size) (encodeBody blockType mediaType bytes)
      (fun source => Reserved 0 0 source.2.utf8ByteSize size) Settled := by
  rw [encodeBody]
  cases hlen : base64EncodedLen bytes.length with
  | error e => exact ensures_throw fun w hw => hw.settled
  | ok encodedLen =>
    have hcharge : Ensures (AtSize size)
        (charge fun budget => budget.reserveMaterializedBytes blockType encodedLen)
        (fun _ => Reserved 0 0 encodedLen size) Settled :=
      ensures_charge fun _ _ hkept h => reserves_materializedBytes hkept h
    refine Ensures.bind hcharge fun _ => ensures_pure fun w hw => ?_
    dsimp only
    rw [utf8ByteSize_base64Encode, ← base64EncodedLen_spec hlen]
    exact hw

theorem ensures_receive {providedMediaType : Option String} {response : Response} :
    Ensures (AtSize 0) (receive env blockType providedMediaType parsed response)
      (fun source w => ∃ size, Reserved 0 0 source.2.utf8ByteSize size w) Settled := by
  rw [receive]
  refine Ensures.bind (ensures_check fun w hw => hw.settled) fun _ => ?_
  split_ifs
  · have hget : Ensures (fun w => AtSize 0 w ∧ env.ensureSafeRemoteUrl parsed.text = .ok ())
        (get : Fetch World) (fun _ => AtSize 0) Settled := ensures_get fun w hw => hw.1
    refine Ensures.bind hget fun w => ?_
    refine Ensures.bind (ensures_check fun w hw => hw.settled) fun _ => ?_
    have hread := @ensures_readLimitedResponseBody blockType response.chunks []
    refine Ensures.bind (hread.mono (fun w hw => hw.1) fun _ _ hw => hw) fun bytes => ?_
    cases inferRemoteMediaType blockType parsed.text providedMediaType
        (response.contentType.map normalizeMediaType) bytes with
    | none => exact ensures_throw fun w hw => hw.settled
    | some mediaType =>
      exact ensures_encodeBody.mono (fun w hw => hw) fun source w hw => ⟨bytes.length, hw⟩
  · exact ensures_throw fun w hw => hw.1.settled

theorem ensures_downloadRemoteMultimodalSource {providedMediaType : Option String} :
    Ensures (AtSize 0) (downloadRemoteMultimodalSource env blockType url providedMediaType)
      (fun source w => ∃ size, Reserved 0 0 source.2.utf8ByteSize size w) Settled := by
  rw [downloadRemoteMultimodalSource]
  refine Ensures.bind (ensures_follow (Nat.zero_le _)) fun response => ?_
  cases response with
  | none => exact ensures_throw fun w hw => hw.settled
  | some response => exact ensures_receive

end Download

section Materialize

variable {env : Env}

theorem ensures_materializeRemoteSourceItem {item : Json} :
    Ensures Settled (materializeRemoteSourceItem env item) (fun _ => Settled) Settled := by
  rw [materializeRemoteSourceItem]
  cases remoteSourceInfo item with
  | none => exact ensures_pure fun w hw => hw
  | some info =>
    dsimp only
    split_ifs
    · exact ensures_pure fun w hw => hw
    · refine Ensures.bind ensures_note_source fun _ => ?_
      refine Ensures.bind ensures_downloadRemoteMultimodalSource fun source => ?_
      refine Ensures.bind (ensures_modify fun w hw => ?_) fun _ => ensures_pure fun w hw => hw
      obtain ⟨size, haccounted, -⟩ := hw
      refine @Accounted.note 0 0 0 w (.inserted source.2.utf8ByteSize) ?_ (by simp) (by simp) ?_
      · simpa only [Event.sends, Event.keeps, Event.inserts, Nat.zero_add] using haccounted
      · exact (Nat.zero_add _).trans_le haccounted.log_within.keptOfSource

theorem ensures_materializeEach {materialize : Json → Fetch (ℕ × Json)} {items : List Json}
    (h : ∀ item, Ensures Settled (materialize item) (fun _ => Settled) Settled) :
    Ensures Settled (materializeEach materialize items) (fun _ => Settled) Settled := by
  induction items with
  | nil => exact ensures_pure fun w hw => hw
  | cons item items ih =>
    exact Ensures.bind (h item) fun first => Ensures.bind ih fun rest => ensures_pure fun w hw => hw

theorem ensures_materializeItem (item : Json) :
    Ensures Settled (materializeItem env item) (fun _ => Settled) Settled := by
  rw [materializeItem]
  cases nestedToolResultContent item with
  | none => exact ensures_materializeRemoteSourceItem
  | some nested =>
    exact Ensures.bind (ensures_materializeEach fun _ => ensures_materializeRemoteSourceItem)
      fun result => ensures_pure fun w hw => hw

theorem ensures_materializeContentSources (content : Json) :
    Ensures Settled (materializeContentSources env content) (fun _ => Settled) Settled := by
  cases content with
  | arr items =>
    exact Ensures.bind (ensures_materializeEach ensures_materializeItem)
      fun result => ensures_pure fun w hw => hw
  | _ => exact ensures_pure fun w hw => hw

theorem ensures_workflow {contents : List Json} :
    Ensures Settled (workflow env contents) (fun _ => Settled) Settled := by
  refine Ensures.bind (ensures_check fun w hw => hw) fun _ => ?_
  refine Ensures.bind (ensures_check fun w hw => hw.1) fun _ => ?_
  have heach := @ensures_materializeEach _ contents (@ensures_materializeContentSources env)
  refine Ensures.bind (heach.mono (fun w hw => hw.1.1) fun _ _ hw => hw) fun result => ?_
  exact Ensures.bind (ensures_get fun w hw => hw) fun w => ensures_pure fun w hw => hw

theorem ensures_materializeRemoteMultimodalSources {contents : List Json} :
    Ensures Settled (materializeRemoteMultimodalSources env contents) (fun _ => Settled)
      Settled := by
  unfold materializeRemoteMultimodalSources
  dsimp only
  split_ifs
  · exact ensures_pure fun w hw => hw
  · exact ensures_throw fun w hw => hw
  · exact Ensures.bind ensures_workflow fun outcome => ensures_pure fun w hw => hw

end Materialize

theorem settled_empty : Settled {} := by
  refine ⟨fun seen hseen => ?_, ⟨rfl, Nat.zero_le _, Nat.zero_le _, Nat.zero_le _⟩, le_rfl, le_rfl,
    le_rfl⟩
  rw [List.suffix_nil.mp hseen]
  exact ⟨by simp, Nat.zero_le _, Nat.zero_le _, Nat.zero_le _, Nat.zero_le _, by simp⟩

/-- What the run for the contents of a request does from first to last, the latest first. -/
def materializationLog (env : Env) (contents : List Json) : List Event :=
  ((materializeRemoteMultimodalSources env contents).exec {}).2.log

theorem within_of_suffix {env : Env} {contents : List Json} {seen : List Event}
    (h : seen <:+ materializationLog env contents) : Within seen := by
  have hrun := @ensures_materializeRemoteMultimodalSources env contents {} settled_empty
  unfold materializationLog at h
  rcases hexec : (materializeRemoteMultimodalSources env contents).exec {} with ⟨result, w⟩
  rw [hexec] at hrun h
  cases result with
  | error e => exact hrun.within seen h
  | ok outcome => exact hrun.within seen h

/-- A request keeps its bounds at every moment, and its connections avoid all the listed networks
but the younger documentation network, which the check lets through. -/
theorem materializeRemoteMultimodalSources_safe (env : Env) (contents : List Json) :
    (∀ seen, seen <:+ materializationLog env contents →
      Within seen ∧ ∀ addr, .connected addr ∈ seen →
        ((∀ addressClass : AddressClass, ¬addressClass.Contains addr) ↔
          ¬laterDocumentation.Contains addr)) ∧
    ∀ addr, (∀ addressClass : AddressClass, addressClass.Contains addr → isBlockedIp addr = true) ↔
      ¬laterDocumentation.Contains addr := by
  refine ⟨fun seen hseen => ⟨within_of_suffix hseen, fun addr hmem => ?_⟩, isBlockedIp_iff⟩
  have hopen := (within_of_suffix hseen).connected addr hmem
  rw [← isBlockedIp_iff]
  refine forall_congr' fun addressClass => ⟨fun hnot h => absurd h hnot, fun hblocked h => ?_⟩
  rw [hblocked h] at hopen
  cases hopen

section LaterDocumentation

def documentationAddr : Ipv6Addr := ⟨0x3fff, 0, 0, 0, 0, 0, 0, 1⟩

def documentationUrl : Url where
  scheme := "http"
  username := ""
  password := none
  hostStr := some "[3fff::1]"
  host := some (.ipv6 documentationAddr)
  port := none
  text := "http://[3fff::1]/image.png"

/-- One server answers with an image of one byte. -/
def documentationEnv : Env where
  parseUrl text :=
    if text = documentationUrl.text then .ok documentationUrl
    else .error "relative URL without a base"
  join _ _ := .error "relative URL without a base"
  parseIp _ := none
  sendError e := e
  exchange _ :=
    { lookups := []
      response := .ok
        { status := 200
          statusText := "200 OK"
          location := none
          contentLength := some 1
          contentType := some "image/png"
          chunks := [.ok [0]] } }
  permitAvailable := true
  client := .ok ()

def documentationContents : List Json :=
  [.arr [.obj [("source", .obj [("type", .str "url"), ("url", .str documentationUrl.text)]),
    ("type", .str "image")]]]

theorem connects_to_documentation :
    .connected (.v6 documentationAddr) ∈ materializationLog documentationEnv documentationContents ∧
      AddressClass.documentation.Contains (.v6 documentationAddr) ∧
      isBlockedIp (.v6 documentationAddr) = false := by
  have hcount : (documentationContents.map countRemoteContentSources).sum = 1 := by
    rw [documentationContents, List.map_singleton, List.sum_singleton, countRemoteContentSources]
    rfl
  have hlog : materializationLog documentationEnv documentationContents =
      ((workflow documentationEnv documentationContents).exec {}).2.log := by
    unfold materializationLog materializeRemoteMultimodalSources
    rw [hcount]
    rfl
  refine ⟨?_, ⟨laterDocumentation, by simp [AddressClass.networks, laterDocumentation], rfl⟩, rfl⟩
  rw [hlog]
  -- The insertion, its charge, the byte and its charge come after the connection.
  exact List.mem_of_getElem? (i := 4) rfl

end LaterDocumentation

end KiroProxy.RemoteSources
