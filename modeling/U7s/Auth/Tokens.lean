import U7s.Lib.Runs
import U7s.Lib.Text

/-! Verification of service account tokens with the signature cache and the memo of live objects. Both clocks count
nanoseconds. -/

namespace U7s.Auth

open List

def nanos : ℕ := 1000000000

def LIVENESS_TTL : ℕ := 5 * nanos

def MAX_TTL : ℕ := 5 * 60 * nanos

def MAX_LIVENESS_ENTRIES : ℕ := 4096

def DELETION_LEEWAY_SECS : ℤ := 60

def ISSUER_AUDIENCE : String := "https://kubernetes.default.svc"

structure Claims where
  exp : ℕ
  aud : List String
  sub : String
  ns : String
  serviceAccount : String × String
  pod : Option (String × String)
deriving DecidableEq

abbrev Bound := String × String

def objectKey (plural ns name : String) : String := "/registry/" ++ plural ++ "/" ++ ns ++ "/" ++ name

def Claims.bound (c : Claims) : List Bound :=
  (objectKey "serviceaccounts" c.ns c.serviceAccount.1, c.serviceAccount.2) ::
    c.pod.toList.map (fun p => (objectKey "pods" c.ns p.1, p.2))

def allowedAudiences (audiences : List String) : List String :=
  if audiences = [] then [ISSUER_AUDIENCE] else audiences

def Claims.audienceOk (c : Claims) (audiences : List String) : Bool :=
  c.aud.any (fun a => (allowedAudiences audiences).contains a)

def Claims.subjectOk (c : Claims) : Bool :=
  match (c.sub.toList.splitOn ':').map String.ofList with
  | p₀ :: p₁ :: _ :: _ :: _ => p₀ = "system" && p₁ = "serviceaccount"
  | _ => false

/-- The key id of an ES256 header, whether the signature verifies under that key, whether the issuer is the expected
one, and the claims, where they decode. -/
structure Scheme (Token Kid Hash : Type) where
  kidOf : Token → Option Kid
  signed : Kid → Token → Bool
  issuerOk : Token → Bool
  claims : Token → Option Claims
  hash : Token → Hash
  offset : ℕ
  capacity : ℕ

/-- What the liveness check reads of an object. A timestamp that does not parse is `none`. -/
structure LivenessCheckFields where
  uid : Option String
  deletionTimestamp : Option (Option ℤ)

section SigCache

variable {Hash : Type} [DecidableEq Hash]

structure SigCache (Hash : Type) [DecidableEq Hash] where
  map : AList (fun _ : Hash => ℕ)
  order : List Hash
  live : AList (fun _ : Bound => ℕ)

def SigCache.recentlyLive (c : SigCache Hash) (key : Bound) (now : ℕ) : Bool :=
  (c.live.lookup key).any (fun seen => now - seen < LIVENESS_TTL)

def unexpired (live : AList (fun _ : Bound => ℕ)) (now : ℕ) : AList (fun _ : Bound => ℕ) :=
  (live.entries.filter (fun e => now - e.2 < LIVENESS_TTL)).toAList

def SigCache.recordLive (c : SigCache Hash) (key : Bound) (now : ℕ) : SigCache Hash :=
  if c.live.entries.length ≥ MAX_LIVENESS_ENTRIES then
    let kept := unexpired c.live now
    { c with live := if kept.entries.length ≥ MAX_LIVENESS_ENTRIES then kept else kept.insert key now }
  else { c with live := c.live.insert key now }

theorem recordLive_map (c : SigCache Hash) (key : Bound) (now : ℕ) : (c.recordLive key now).map = c.map := by
  unfold SigCache.recordLive
  split_ifs <;> rfl

theorem lookup_of_unexpired (h : (unexpired live now).lookup key = some t) : live.lookup key = some t := by
  have hmem : t ∈ dlookup key (live.entries.filter (fun e => now - e.2 < LIVENESS_TTL)) := by
    rw [← dlookup_dedupKeys]
    exact h
  exact AList.mem_lookup_iff.mpr (mem_filter.mp (of_mem_dlookup hmem)).1

theorem lookup_of_recordLive {c : SigCache Hash}
    (h : (c.recordLive key now).live.lookup obj = some t) : obj = key ∧ t = now ∨ c.live.lookup obj = some t := by
  have hinsert {live : AList (fun _ : Bound => ℕ)} (hl : (live.insert key now).lookup obj = some t) :
      obj = key ∧ t = now ∨ live.lookup obj = some t := by
    by_cases hk : obj = key
    · rw [hk, AList.lookup_insert] at hl
      exact .inl ⟨hk, (Option.some.inj hl).symm⟩
    · rw [AList.lookup_insert_ne hk] at hl
      exact .inr hl
  unfold SigCache.recordLive at h
  dsimp only at h
  split_ifs at h
  · exact .inr (lookup_of_unexpired h)
  · exact (hinsert h).imp_right lookup_of_unexpired
  · exact hinsert h

def SigCache.get (c : SigCache Hash) (key : Hash) (now : ℕ) : Bool := (c.map.lookup key).any (fun e => now < e)

def evict (capacity : ℕ) : List Hash → AList (fun _ : Hash => ℕ) → List Hash × AList (fun _ : Hash => ℕ)
  | [], map => ([], map)
  | oldest :: order, map =>
    if map.entries.length > capacity then evict capacity order (map.erase oldest) else (oldest :: order, map)

def SigCache.insert (c : SigCache Hash) (capacity : ℕ) (key : Hash) (expiresAt : ℕ) : SigCache Hash :=
  let order := if (c.map.lookup key).isSome then c.order else c.order ++ [key]
  let (order, map) := evict (max capacity 1) order (c.map.insert key expiresAt)
  { c with map, order }

def cappedExpiry (tokenExpUnix nowUnix now : ℕ) : ℕ := now + min ((tokenExpUnix - nowUnix) * nanos) MAX_TTL

end SigCache

inductive Pc (Kid : Type) where
  | resolve
  | lookup (kid : Kid)
  | verify (kid : Kid)
  /-- Verified; the monotonic clock is read next, then the wall clock. -/
  | sample (c : Claims)
  | insert (c : Claims) (now : ℕ)
  | audience (c : Claims)
  | live (todo : List Bound)
  | read (obj : Bound) (todo : List Bound)
  | record (obj : Bound) (todo : List Bound)
  | accepted
  | rejected
deriving DecidableEq

structure Call (Token Kid : Type) where
  token : Token
  audiences : List String
  started : ℕ
  pc : Pc Kid
  keyring : List Kid
  hit : Option ℕ

section Machine

variable {Token Kid Hash : Type} [DecidableEq Kid] [DecidableEq Hash]

structure VerifierState (Token Kid Hash : Type) [DecidableEq Hash] where
  now : ℕ
  keyring : List Kid
  store : AList (fun _ : String => LivenessCheckFields)
  cache : SigCache Hash
  calls : List (Call Token Kid)

inductive VerifierAction (Token Kid : Type) where
  | tick (d : ℕ)
  | setKeyring (kids : List Kid)
  | write (key : String) (obj : LivenessCheckFields)
  | remove (key : String)
  | begin (token : Token) (audiences : List String)
  | step (i : ℕ)
  | read (i : ℕ) (ok : Bool)

variable (S : Scheme Token Kid Hash)

def unixSecs (now : ℕ) : ℕ := (now + S.offset) / nanos

def fullDecode (kid : Kid) (token : Token) (nowUnix : ℕ) : Option Claims :=
  if S.signed kid token && S.issuerOk token then (S.claims token).filter (fun c => nowUnix ≤ c.exp) else none

def fullVerification (keyring : List Kid) (now : ℕ) (token : Token) (audiences : List String) : Bool :=
  (S.kidOf token).any (fun kid => keyring.contains kid &&
    (fullDecode S kid token (unixSecs S now)).any (fun c => c.audienceOk audiences))

def objectIsLive (store : AList (fun _ : String => LivenessCheckFields)) (obj : Bound) (nowUnix : ℕ) : Bool :=
  (store.lookup obj.1).any (fun f => f.uid = some obj.2 &&
    match f.deletionTimestamp with
    | none => true
    | some none => false
    | some (some deletedAt) => (nowUnix : ℤ) - deletedAt ≤ DELETION_LEEWAY_SECS)

namespace VerifierState

variable (s : VerifierState Token Kid Hash)

def setCall (i : ℕ) (c : Call Token Kid) : VerifierState Token Kid Hash := { s with calls := s.calls.set i c }

def stepCall (i : ℕ) (c : Call Token Kid) : VerifierState Token Kid Hash :=
  match c.pc with
  | .resolve =>
    match S.kidOf c.token with
    | some kid =>
      s.setCall i { c with keyring := s.keyring, pc := if s.keyring.contains kid then .lookup kid else .rejected }
    | none => s.setCall i { c with pc := .rejected }
  | .lookup kid =>
    if s.cache.get (S.hash c.token) s.now then
      match S.claims c.token with
      | some claims => s.setCall i { c with hit := some s.now, pc := .audience claims }
      | none => s.setCall i { c with pc := .rejected }
    else s.setCall i { c with pc := .verify kid }
  | .verify kid =>
    match fullDecode S kid c.token (unixSecs S s.now) with
    | some claims => s.setCall i { c with pc := .sample claims }
    | none => s.setCall i { c with pc := .rejected }
  | .sample claims => s.setCall i { c with pc := .insert claims s.now }
  | .insert claims now =>
    { s with cache := s.cache.insert S.capacity (S.hash c.token) (cappedExpiry claims.exp (unixSecs S s.now) now) }.setCall
      i { c with pc := .audience claims }
  | .audience claims =>
    s.setCall i { c with
      pc := if claims.audienceOk c.audiences && claims.subjectOk then .live claims.bound else .rejected }
  | .live [] => s.setCall i { c with pc := .accepted }
  | .live (obj :: todo) =>
    s.setCall i { c with pc := if s.cache.recentlyLive obj s.now then .live todo else .read obj todo }
  | .record obj todo => { s with cache := s.cache.recordLive obj s.now }.setCall i { c with pc := .live todo }
  | _ => s

def readCall (i : ℕ) (c : Call Token Kid) (ok : Bool) : VerifierState Token Kid Hash :=
  match c.pc with
  | .read obj todo =>
    s.setCall i { c with
      pc := if ok && objectIsLive s.store obj (unixSecs S s.now) then .record obj todo else .rejected }
  | _ => s

def step : VerifierAction Token Kid → VerifierState Token Kid Hash
  | .tick d => { s with now := s.now + d }
  | .setKeyring kids => { s with keyring := kids }
  | .write key obj => { s with store := s.store.insert key obj }
  | .remove key => { s with store := s.store.erase key }
  | .begin token audiences => { s with calls := s.calls ++ [⟨token, audiences, s.now, .resolve, [], none⟩] }
  | .step i =>
    match s.calls[i]? with
    | some c => s.stepCall S i c
    | none => s
  | .read i ok =>
    match s.calls[i]? with
    | some c => s.readCall S i c ok
    | none => s

def initial (store : AList (fun _ : String => LivenessCheckFields)) (now : ℕ) : VerifierState Token Kid Hash :=
  ⟨now, [], store, ⟨∅, [], ∅⟩, []⟩

def Holds (obj : Bound) : Prop := (s.store.lookup obj.1).any (fun f => f.uid = some obj.2) = true

end VerifierState

section Steps

def Call.recording (c : Call Token Kid) : Option Bound :=
  match c.pc with
  | .record obj _ => some obj
  | _ => none

variable {S} {s : VerifierState Token Kid Hash} {i : ℕ}

inductive CallStepped (S : Scheme Token Kid Hash) (s : VerifierState Token Kid Hash) (i : ℕ) (c : Call Token Kid) :
    VerifierState Token Kid Hash → Prop where
  | stay : CallStepped S s i c s
  | reject (keyring : List Kid) : CallStepped S s i c (s.setCall i { c with keyring, pc := .rejected })
  | resolve (kid : Kid) : c.pc = .resolve → S.kidOf c.token = some kid → kid ∈ s.keyring →
      CallStepped S s i c (s.setCall i { c with keyring := s.keyring, pc := .lookup kid })
  | hit (kid : Kid) (claims : Claims) : c.pc = .lookup kid → s.cache.get (S.hash c.token) s.now = true →
      S.claims c.token = some claims →
      CallStepped S s i c (s.setCall i { c with hit := some s.now, pc := .audience claims })
  | miss (kid : Kid) : c.pc = .lookup kid → CallStepped S s i c (s.setCall i { c with pc := .verify kid })
  | verify (kid : Kid) (claims : Claims) : c.pc = .verify kid →
      fullDecode S kid c.token (unixSecs S s.now) = some claims →
      CallStepped S s i c (s.setCall i { c with pc := .sample claims })
  | sample (claims : Claims) : c.pc = .sample claims →
      CallStepped S s i c (s.setCall i { c with pc := .insert claims s.now })
  | insert (claims : Claims) (now : ℕ) : c.pc = .insert claims now →
      CallStepped S s i c ({ s with
        cache := s.cache.insert S.capacity (S.hash c.token)
          (cappedExpiry claims.exp (unixSecs S s.now) now) }.setCall i { c with pc := .audience claims })
  | audience (claims : Claims) : c.pc = .audience claims → claims.audienceOk c.audiences = true →
      CallStepped S s i c (s.setCall i { c with pc := .live claims.bound })
  | accept : c.pc = .live [] → CallStepped S s i c (s.setCall i { c with pc := .accepted })
  | recent (obj : Bound) (todo : List Bound) : c.pc = .live (obj :: todo) → s.cache.recentlyLive obj s.now = true →
      CallStepped S s i c (s.setCall i { c with pc := .live todo })
  | ask (obj : Bound) (todo : List Bound) : c.pc = .live (obj :: todo) →
      CallStepped S s i c (s.setCall i { c with pc := .read obj todo })
  | read (obj : Bound) (todo : List Bound) : c.pc = .read obj todo → s.Holds obj →
      CallStepped S s i c (s.setCall i { c with pc := .record obj todo })
  | record (obj : Bound) (todo : List Bound) : c.pc = .record obj todo →
      CallStepped S s i c ({ s with cache := s.cache.recordLive obj s.now }.setCall i { c with pc := .live todo })

theorem stepCall_cases (c : Call Token Kid) : CallStepped S s i c (s.stepCall S i c) := by
  unfold VerifierState.stepCall
  cases hpc : c.pc with
  | resolve =>
    cases hkid : S.kidOf c.token with
    | none => exact .reject c.keyring
    | some kid =>
      dsimp only
      by_cases hmem : s.keyring.contains kid
      · rw [if_pos hmem]
        exact .resolve kid hpc hkid (contains_iff_mem.mp hmem)
      · rw [if_neg hmem]
        exact .reject s.keyring
  | lookup kid =>
    dsimp only
    by_cases hget : s.cache.get (S.hash c.token) s.now
    · rw [if_pos hget]
      cases hclaims : S.claims c.token with
      | none => exact .reject c.keyring
      | some claims => exact .hit kid claims hpc hget hclaims
    · rw [if_neg hget]
      exact .miss kid hpc
  | verify kid =>
    dsimp only
    cases hdec : fullDecode S kid c.token (unixSecs S s.now) with
    | none => exact .reject c.keyring
    | some claims => exact .verify kid claims hpc hdec
  | sample claims => exact .sample claims hpc
  | insert claims now => exact .insert claims now hpc
  | audience claims =>
    dsimp only
    by_cases hok : (claims.audienceOk c.audiences && claims.subjectOk)
    · rw [if_pos hok]
      exact .audience claims hpc (Bool.and_eq_true_iff.mp hok).1
    · rw [if_neg hok]
      exact .reject c.keyring
  | live todo =>
    cases todo with
    | nil => exact .accept hpc
    | cons obj todo =>
      dsimp only
      by_cases hlive : s.cache.recentlyLive obj s.now
      · rw [if_pos hlive]
        exact .recent obj todo hpc hlive
      · rw [if_neg hlive]
        exact .ask obj todo hpc
  | record obj todo => exact .record obj todo hpc
  | read obj todo | accepted | rejected => exact .stay

omit [DecidableEq Kid] in
theorem holds_of_objectIsLive (h : objectIsLive s.store obj nowUnix) : s.Holds obj := by
  unfold objectIsLive at h
  unfold VerifierState.Holds
  cases hf : s.store.lookup obj.1 with
  | none =>
    rw [hf] at h
    cases h
  | some f =>
    rw [hf] at h
    exact (Bool.and_eq_true_iff.mp h).1

omit [DecidableEq Kid] in
theorem readCall_cases (c : Call Token Kid) (ok : Bool) : CallStepped S s i c (s.readCall S i c ok) := by
  unfold VerifierState.readCall
  cases hpc : c.pc with
  | read obj todo =>
    dsimp only
    by_cases hlive : (ok && objectIsLive s.store obj (unixSecs S s.now))
    · rw [if_pos hlive]
      exact .read obj todo hpc (holds_of_objectIsLive (Bool.and_eq_true_iff.mp hlive).2)
    · rw [if_neg hlive]
      exact .reject c.keyring
  | _ => exact .stay

omit [DecidableEq Kid] in
theorem readCall_of_recording (h : c.recording = some obj) : s.readCall S i c ok = s := by
  unfold Call.recording at h
  unfold VerifierState.readCall
  cases hpc : c.pc with
  | record o todo => rfl
  | _ => simp [hpc] at h

inductive Stepped (S : Scheme Token Kid Hash) (s : VerifierState Token Kid Hash) (a : VerifierAction Token Kid) :
    VerifierState Token Kid Hash → Prop where
  | tick (d : ℕ) : Stepped S s a { s with now := s.now + d }
  | environment (keyring : List Kid) (store : AList (fun _ : String => LivenessCheckFields)) :
      Stepped S s a { s with keyring, store }
  | begin (token : Token) (audiences : List String) :
      Stepped S s a { s with calls := s.calls ++ [⟨token, audiences, s.now, .resolve, [], none⟩] }
  | call (i : ℕ) (c : Call Token Kid) (s' : VerifierState Token Kid Hash) : s.calls[i]? = some c →
      c.recording = none ∨ a = .step i → CallStepped S s i c s' → Stepped S s a s'

theorem step_cases (a : VerifierAction Token Kid) : Stepped S s a (s.step S a) := by
  cases a with
  | tick d => exact .tick d
  | setKeyring kids => exact .environment kids s.store
  | write key obj => exact .environment s.keyring (s.store.insert key obj)
  | remove key => exact .environment s.keyring (s.store.erase key)
  | begin token audiences => exact .begin token audiences
  | step i =>
    unfold VerifierState.step
    dsimp only
    cases hc : s.calls[i]? with
    | none => exact .environment s.keyring s.store
    | some c => exact .call i c _ hc (.inr rfl) (stepCall_cases c)
  | read i ok =>
    unfold VerifierState.step
    dsimp only
    cases hc : s.calls[i]? with
    | none => exact .environment s.keyring s.store
    | some c =>
      -- a call that is about to remember does not wait for an answer
      cases hrec : c.recording with
      | none => exact .call i c _ hc (.inl hrec) (readCall_cases c ok)
      | some obj =>
        dsimp only
        rw [readCall_of_recording hrec]
        exact .environment s.keyring s.store

end Steps

end Machine

section Cache

variable {Token Kid Hash : Type} (S : Scheme Token Kid Hash)

def Genuine (kid : Kid) (token : Token) (c : Claims) : Prop :=
  S.kidOf token = some kid ∧ S.signed kid token = true ∧ S.issuerOk token = true ∧ S.claims token = some c

def EntrySound (now : ℕ) (h : Hash) (expiresAt : ℕ) : Prop :=
  ∃ token kid c, S.hash token = h ∧ Genuine S kid token c ∧
    ∀ t, now ≤ t → t < expiresAt → unixSecs S t ≤ c.exp

variable {S}

theorem fullDecode_of_genuine (h : Genuine S kid token claims) (hexp : nowUnix ≤ claims.exp) :
    fullDecode S kid token nowUnix = some claims := by
  obtain ⟨-, hsigned, hissuer, hclaims⟩ := h
  simp [fullDecode, hsigned, hissuer, hclaims, hexp]

theorem claims_of_fullDecode (h : fullDecode S kid token nowUnix = some claims) : S.claims token = some claims := by
  unfold fullDecode at h
  split_ifs at h
  exact (Option.filter_eq_some_iff.mp h).1

theorem genuine_of_fullDecode (hkid : S.kidOf token = some kid)
    (h : fullDecode S kid token nowUnix = some claims) : Genuine S kid token claims := by
  have hclaims := claims_of_fullDecode h
  unfold fullDecode at h
  split_ifs at h with hsigned
  rw [Bool.and_eq_true] at hsigned
  exact ⟨hkid, hsigned.1, hsigned.2, hclaims⟩

theorem unixSecs_le_of_lt_cappedExpiry (ht₀ : t₀ ≤ now) (hnow : now ≤ t)
    (ht : t < cappedExpiry exp (unixSecs S now) t₀) : unixSecs S t ≤ exp := by
  have hmin : min ((exp - unixSecs S now) * nanos) MAX_TTL ≤ (exp - unixSecs S now) * nanos := min_le_left _ _
  have hlt : t < t₀ + (exp - unixSecs S now) * nanos := lt_of_lt_of_le ht (Nat.add_le_add_left hmin t₀)
  have hlater : unixSecs S now ≤ exp := by
    by_contra hle
    rw [Nat.sub_eq_zero_of_le (by omega)] at hlt
    omega
  have hfloor : now + S.offset < (unixSecs S now + 1) * nanos := by
    rw [add_mul]
    exact Nat.lt_div_mul_add (by decide)
  have hsum : t + S.offset < (exp + 1) * nanos := by
    have hsplit : (exp + 1) * nanos = (unixSecs S now + 1) * nanos + (exp - unixSecs S now) * nanos := by
      rw [← add_mul]
      congr 1
      omega
    omega
  exact Nat.lt_succ_iff.mp (Nat.div_lt_of_lt_mul (by rwa [mul_comm]))

theorem EntrySound.later (h : now ≤ now') {hash : Hash} (hs : EntrySound S now hash e) :
    EntrySound S now' hash e := by
  obtain ⟨token, kid, claims, hhash, hgenuine, hexp⟩ := hs
  exact ⟨token, kid, claims, hhash, hgenuine, fun t ht => hexp t (h.trans ht)⟩

variable [DecidableEq Kid] (S)

def CallSound (now : ℕ) (c : Call Token Kid) : Prop :=
  match c.pc with
  | .resolve => c.hit = none
  | .lookup kid => c.hit = none ∧ S.kidOf c.token = some kid ∧ kid ∈ c.keyring
  | .verify kid => c.hit = none ∧ S.kidOf c.token = some kid
  | .sample claims => c.hit = none ∧ ∃ kid, Genuine S kid c.token claims
  | .insert claims t => c.hit = none ∧ (∃ kid, Genuine S kid c.token claims) ∧ t ≤ now
  | .audience claims => ∀ t, c.hit = some t → ∃ kid, S.kidOf c.token = some kid ∧ kid ∈ c.keyring ∧
      fullDecode S kid c.token (unixSecs S t) = some claims
  | .rejected => True
  | _ => ∀ t, c.hit = some t → fullVerification S c.keyring t c.token c.audiences = true

variable {S}

theorem CallSound.later (h : now ≤ now') (hc : CallSound S now c) : CallSound S now' c := by
  unfold CallSound at hc ⊢
  cases hpc : c.pc <;> rw [hpc] at hc <;> first | exact hc | exact ⟨hc.1, hc.2.1, hc.2.2.trans h⟩

variable [DecidableEq Hash] (S)

structure CacheSound (s : VerifierState Token Kid Hash) : Prop where
  entries : ∀ h e, s.cache.map.lookup h = some e → EntrySound S s.now h e
  calls : ∀ c ∈ s.calls, CallSound S s.now c

variable {S}

omit [DecidableEq Kid] in
theorem mem_of_evict {map : AList (fun _ : Hash => ℕ)}
    (hmem : (evict capacity order map).2.lookup h = some e) : map.lookup h = some e := by
  induction order generalizing map with
  | nil => exact hmem
  | cons o order ih =>
    unfold evict at hmem
    split_ifs at hmem
    · have herase := ih hmem
      by_cases ho : h = o
      · rw [ho, AList.lookup_erase] at herase
        cases herase
      · rwa [AList.lookup_erase_ne ho] at herase
    · exact hmem

theorem CacheSound.setCall (hs : CacheSound S s) (hc : CallSound S s.now c') :
    CacheSound S (s.setCall i c') where
  entries := hs.entries
  calls := by
    intro x hx
    obtain hx | rfl := mem_or_eq_of_mem_set hx
    · exact hs.calls x hx
    · exact hc

theorem CacheSound.hit (hs : CacheSound S s) (hinj : Function.Injective S.hash)
    (hkid : S.kidOf token = some kid) (hhit : s.cache.get (S.hash token) s.now)
    (hclaims : S.claims token = some claims) : fullDecode S kid token (unixSecs S s.now) = some claims := by
  unfold SigCache.get at hhit
  cases he : s.cache.map.lookup (S.hash token) with
  | none =>
    rw [he] at hhit
    cases hhit
  | some e =>
    rw [he] at hhit
    obtain ⟨token', kid', claims', hhash, hgenuine, hexp⟩ := hs.entries _ _ he
    cases hinj hhash
    cases hkid.symm.trans hgenuine.1
    cases hclaims.symm.trans hgenuine.2.2.2
    exact fullDecode_of_genuine hgenuine (hexp s.now (le_refl _) (of_decide_eq_true hhit))

theorem CacheSound.insert (hs : CacheSound S s) (hgenuine : Genuine S kid token claims) (ht₀ : t₀ ≤ s.now) :
    CacheSound S { s with
      cache := s.cache.insert S.capacity (S.hash token) (cappedExpiry claims.exp (unixSecs S s.now) t₀) } where
  entries := by
    intro h e he
    have hmem := mem_of_evict (show (evict (max S.capacity 1) _ _).2.lookup h = some e from he)
    by_cases hh : h = S.hash token
    · subst hh
      rw [AList.lookup_insert] at hmem
      cases hmem
      exact ⟨token, kid, claims, rfl, hgenuine, fun t => unixSecs_le_of_lt_cappedExpiry ht₀⟩
    · rw [AList.lookup_insert_ne hh] at hmem
      exact hs.entries h e hmem
  calls := hs.calls

theorem CacheSound.callStepped (hs : CacheSound S s) (hinj : Function.Injective S.hash) (hc : c ∈ s.calls)
    (hstep : CallStepped S s i c s') : CacheSound S s' := by
  have hsound := hs.calls c hc
  unfold CallSound at hsound
  cases hstep with
  | stay => exact hs
  | reject keyring => exact hs.setCall trivial
  | resolve kid hpc hkid hmem =>
    rw [hpc] at hsound
    exact hs.setCall ⟨hsound, hkid, hmem⟩
  | hit kid claims hpc hget hclaims =>
    rw [hpc] at hsound
    obtain ⟨-, hkid, hmem⟩ := hsound
    refine hs.setCall (fun t ht => ?_)
    cases ht
    exact ⟨kid, hkid, hmem, hs.hit hinj hkid hget hclaims⟩
  | miss kid hpc =>
    rw [hpc] at hsound
    exact hs.setCall ⟨hsound.1, hsound.2.1⟩
  | verify kid claims hpc hdec =>
    rw [hpc] at hsound
    exact hs.setCall ⟨hsound.1, kid, genuine_of_fullDecode hsound.2 hdec⟩
  | sample claims hpc =>
    rw [hpc] at hsound
    exact hs.setCall ⟨hsound.1, hsound.2, le_refl _⟩
  | insert claims now hpc =>
    rw [hpc] at hsound
    obtain ⟨hnone, ⟨kid, hgenuine⟩, hnow⟩ := hsound
    apply (hs.insert hgenuine hnow).setCall
    intro t ht
    cases hnone.symm.trans ht
  | audience claims hpc hok =>
    rw [hpc] at hsound
    refine hs.setCall (fun t ht => ?_)
    obtain ⟨kid, hkid, hmem, hdec⟩ := hsound t ht
    simp only [fullVerification, hkid, Option.any_some, hdec, hok, Bool.and_true]
    exact contains_iff_mem.mpr hmem
  | accept hpc | recent obj todo hpc | ask obj todo hpc | read obj todo hpc =>
    rw [hpc] at hsound
    exact hs.setCall hsound
  | record obj todo hpc =>
    rw [hpc] at hsound
    have hcache : CacheSound S { s with cache := s.cache.recordLive obj s.now } :=
      ⟨fun h e he => hs.entries h e (by rwa [recordLive_map] at he), hs.calls⟩
    exact hcache.setCall hsound

theorem CacheSound.stepped (hs : CacheSound S s) (hinj : Function.Injective S.hash)
    (h : Stepped S s a s') : CacheSound S s' := by
  cases h with
  | tick d =>
    have hle : s.now ≤ s.now + d := Nat.le_add_right _ _
    exact ⟨fun h e he => (hs.entries h e he).later hle, fun c hc => (hs.calls c hc).later hle⟩
  | environment keyring store => exact ⟨hs.entries, hs.calls⟩
  | begin token audiences =>
    refine ⟨hs.entries, fun c hc => ?_⟩
    obtain hc | rfl := mem_append.mp hc |>.imp_right mem_singleton.mp
    · exact hs.calls c hc
    · exact rfl
  | call i c _ hc hrec hstep => exact hs.callStepped hinj (mem_of_getElem? hc) hstep

theorem cacheSound_initial (store : AList (fun _ : String => LivenessCheckFields)) (now : ℕ) :
    CacheSound S (VerifierState.initial store now : VerifierState Token Kid Hash) where
  entries := by
    intro h e he
    cases he
  calls := by
    intro c hc
    cases hc

end Cache

section Liveness

variable {Token Kid Hash : Type} [DecidableEq Hash] {S : Scheme Token Kid Hash}
  {s s' : VerifierState Token Kid Hash} {c : Call Token Kid} {i : ℕ} {obj : Bound} {removed : ℕ}

structure Stamped (s : VerifierState Token Kid Hash) : Prop where
  live : ∀ obj t, s.cache.live.lookup obj = some t → t ≤ s.now
  started : ∀ c ∈ s.calls, c.started ≤ s.now

variable (S obj) in
def Pending (c : Call Token Kid) : Prop :=
  ∀ claims, S.claims c.token = some claims → obj ∈ claims.bound →
    match c.pc with
    | .sample claims' => claims' = claims
    | .insert claims' _ => claims' = claims
    | .audience claims' => claims' = claims
    | .live todo => obj ∈ todo
    | .read o todo => obj ∈ o :: todo
    | .record _ todo => obj ∈ todo
    | .accepted => False
    | _ => True

variable (S obj removed) in
structure Gone (s : VerifierState Token Kid Hash) : Prop where
  memo : ∀ t, s.cache.live.lookup obj = some t → t ≤ removed
  started : ∀ c ∈ s.calls, c.started ≤ s.now
  calls : ∀ c ∈ s.calls, removed + LIVENESS_TTL < c.started → Pending S obj c

namespace VerifierState

instance (s : VerifierState Token Kid Hash) (obj : Bound) : Decidable (s.Holds obj) :=
  inferInstanceAs (Decidable (_ = true))

def Timely (s : VerifierState Token Kid Hash) : VerifierAction Token Kid → Prop
  | .step i => ∀ obj ∈ s.calls[i]?.bind Call.recording, s.Holds obj
  | _ => True

instance (s : VerifierState Token Kid Hash) : ∀ a, Decidable (s.Timely a)
  | .step _ => inferInstanceAs (Decidable (∀ _ ∈ (_ : Option Bound), _))
  | .tick _ | .setKeyring _ | .write _ _ | .remove _ | .begin _ _ | .read _ _ => isTrue trivial

end VerifierState

theorem CallStepped.now_eq (h : CallStepped S s i c s') : s'.now = s.now := by
  cases h <;> rfl

theorem CallStepped.started (h : CallStepped S s i c s') (hc : c ∈ s.calls) (hx : x ∈ s'.calls) :
    ∃ y ∈ s.calls, x.started = y.started := by
  cases h with
  | stay => exact ⟨x, hx, rfl⟩
  | _ =>
    obtain hx | rfl := mem_or_eq_of_mem_set hx
    · exact ⟨x, hx, rfl⟩
    · exact ⟨c, hc, rfl⟩

theorem CallStepped.memo (h : CallStepped S s i c s') (ht : s'.cache.live.lookup obj = some t) :
    c.recording = some obj ∧ t = s.now ∨ s.cache.live.lookup obj = some t := by
  cases h with
  | record o todo hpc =>
    obtain ⟨rfl, rfl⟩ | hold := lookup_of_recordLive ht
    · exact .inl ⟨by rw [Call.recording, hpc], rfl⟩
    · exact .inr hold
  | _ => exact .inr ht

theorem Stamped.callStepped (hs : Stamped s) (hc : c ∈ s.calls) (hstep : CallStepped S s i c s') : Stamped s' where
  live := by
    intro obj t ht
    rw [hstep.now_eq]
    obtain ⟨-, rfl⟩ | hold := hstep.memo ht
    · exact le_refl _
    · exact hs.live obj t hold
  started := by
    intro x hx
    obtain ⟨y, hy, heq⟩ := hstep.started hc hx
    rw [hstep.now_eq, heq]
    exact hs.started y hy

theorem Stamped.stepped (hs : Stamped s) (h : Stepped S s a s') : Stamped s' := by
  cases h with
  | tick d =>
    have hle : s.now ≤ s.now + d := Nat.le_add_right _ _
    exact ⟨fun obj t ht => (hs.live obj t ht).trans hle, fun c hc => (hs.started c hc).trans hle⟩
  | environment keyring store => exact ⟨hs.live, hs.started⟩
  | begin token audiences =>
    refine ⟨hs.live, fun c hc => ?_⟩
    obtain hc | rfl := mem_append.mp hc |>.imp_right mem_singleton.mp
    · exact hs.started c hc
    · exact le_refl _
  | call i c _ hc hrec hstep => exact hs.callStepped (mem_of_getElem? hc) hstep

theorem stamped_initial (store : AList (fun _ : String => LivenessCheckFields)) (now : ℕ) :
    Stamped (VerifierState.initial store now : VerifierState Token Kid Hash) where
  live := by
    intro obj t ht
    cases ht
  started := by
    intro c hc
    cases hc

theorem Stamped.gone (hs : Stamped s) : Gone S obj s.now s where
  memo := hs.live obj
  started := hs.started
  calls := by
    intro c hc hlater
    have := hs.started c hc
    omega

section

variable (hs : Gone S obj removed s)
include hs

theorem Gone.setCall (hstarted : c'.started ≤ s.now) (hc : removed + LIVENESS_TTL < c'.started → Pending S obj c') :
    Gone S obj removed (s.setCall i c') where
  memo := hs.memo
  started := by
    intro x hx
    obtain hx | rfl := mem_or_eq_of_mem_set hx
    · exact hs.started x hx
    · exact hstarted
  calls := by
    intro x hx
    obtain hx | rfl := mem_or_eq_of_mem_set hx
    · exact hs.calls x hx
    · exact hc

theorem Gone.not_recentlyLive (hlater : removed + LIVENESS_TTL < s.now) :
    s.cache.recentlyLive obj s.now = false := by
  unfold SigCache.recentlyLive
  cases ht : s.cache.live.lookup obj with
  | none => rfl
  | some t =>
    have := hs.memo t ht
    simp only [Option.any_some, decide_eq_false_iff_not]
    omega

theorem Gone.callStepped (hgone : ¬s.Holds obj) (hc : c ∈ s.calls)
    (hrec : c.recording ≠ some obj) (hstep : CallStepped S s i c s') : Gone S obj removed s' := by
  have hstarted := hs.started c hc
  have hpending := hs.calls c hc
  unfold Pending at hpending
  cases hstep with
  | stay => exact hs
  | reject keyring | resolve kid hpc => exact hs.setCall hstarted (fun _ _ _ _ => trivial)
  | hit kid claims hpc hget hclaims =>
    refine hs.setCall hstarted (fun _ claims' hclaims' _ => ?_)
    exact Option.some.inj (hclaims.symm.trans hclaims')
  | miss kid hpc => exact hs.setCall hstarted (fun _ _ _ _ => trivial)
  | verify kid claims hpc hdec =>
    refine hs.setCall hstarted (fun _ claims' hclaims' _ => ?_)
    exact Option.some.inj ((claims_of_fullDecode hdec).symm.trans hclaims')
  | sample claims hpc =>
    rw [hpc] at hpending
    exact hs.setCall hstarted hpending
  | insert claims now hpc =>
    rw [hpc] at hpending
    have hcache : Gone S obj removed { s with
        cache := s.cache.insert S.capacity (S.hash c.token) (cappedExpiry claims.exp (unixSecs S s.now) now) } :=
      ⟨hs.memo, hs.started, hs.calls⟩
    exact hcache.setCall hstarted hpending
  | audience claims hpc =>
    rw [hpc] at hpending
    refine hs.setCall hstarted (fun hlater claims' hclaims' hbound => ?_)
    rw [← hpending hlater claims' hclaims' hbound] at hbound
    exact hbound
  | accept hpc =>
    rw [hpc] at hpending
    refine hs.setCall hstarted (fun hlater claims hclaims hbound => ?_)
    cases hpending hlater claims hclaims hbound
  | recent o todo hpc hrecent =>
    rw [hpc] at hpending
    refine hs.setCall hstarted (fun hlater claims hclaims hbound => ?_)
    refine (mem_cons.mp (hpending hlater claims hclaims hbound)).resolve_left ?_
    rintro rfl
    rw [hs.not_recentlyLive (hlater.trans_le hstarted)] at hrecent
    cases hrecent
  | ask o todo hpc =>
    rw [hpc] at hpending
    exact hs.setCall hstarted hpending
  | read o todo hpc hholds =>
    rw [hpc] at hpending
    refine hs.setCall hstarted (fun hlater claims hclaims hbound => ?_)
    refine (mem_cons.mp (hpending hlater claims hclaims hbound)).resolve_left ?_
    rintro rfl
    exact hgone hholds
  | record o todo hpc =>
    rw [hpc] at hpending
    have hcache : Gone S obj removed { s with cache := s.cache.recordLive o s.now } := by
      refine ⟨fun t ht => ?_, hs.started, hs.calls⟩
      obtain ⟨rfl, -⟩ | hold := lookup_of_recordLive ht
      · exact absurd (by rw [Call.recording, hpc]) hrec
      · exact hs.memo t hold
    exact hcache.setCall hstarted hpending

theorem Gone.stepped (hgone : ¬s.Holds obj) (htimely : s.Timely a) (h : Stepped S s a s') : Gone S obj removed s' := by
  cases h with
  | tick d =>
    exact ⟨hs.memo, fun c hc => (hs.started c hc).trans (Nat.le_add_right _ _), hs.calls⟩
  | environment keyring store => exact ⟨hs.memo, hs.started, hs.calls⟩
  | begin token audiences =>
    have hcalls {c : Call Token Kid} (hc : c ∈ s.calls ++ [⟨token, audiences, s.now, .resolve, [], none⟩]) :=
      mem_append.mp hc |>.imp_right mem_singleton.mp
    refine ⟨hs.memo, fun c hc => ?_, fun c hc => ?_⟩
    · obtain hc | rfl := hcalls hc
      · exact hs.started c hc
      · exact le_refl _
    · obtain hc | rfl := hcalls hc
      · exact hs.calls c hc
      · exact fun _ _ _ _ => trivial
  | call i c _ hc hrec hstep =>
    refine hs.callStepped hgone (mem_of_getElem? hc) (fun hobj => ?_) hstep
    obtain hnone | rfl := hrec
    · cases hnone.symm.trans hobj
    · exact hgone (htimely obj (by rw [hc]; exact hobj))

end

variable [DecidableEq Kid]

/-- What the cache answers a full verification would answer at that instant. A call that begins more than
`LIVENESS_TTL` after a bound object has left the store is not accepted, if what was found alive is remembered only
while it is. -/
theorem token_cache_faithful (S : Scheme Token Kid Hash) (hinj : Function.Injective S.hash)
    (store : AList (fun _ : String => LivenessCheckFields)) (now : ℕ) (as bs : List (VerifierAction Token Kid))
    (obj : Bound)
    (hgone : Runs.Along (VerifierState.step S) (fun s _ => ¬s.Holds obj)
      (Runs.run (VerifierState.step S) (VerifierState.initial store now) as) bs)
    (htimely : Runs.Along (VerifierState.step S) VerifierState.Timely
      (Runs.run (VerifierState.step S) (VerifierState.initial store now) as) bs) :
    ∀ c ∈ (Runs.run (VerifierState.step S) (VerifierState.initial store now) (as ++ bs)).calls,
      c.pc = .accepted →
      (∀ t, c.hit = some t → fullVerification S c.keyring t c.token c.audiences = true) ∧
      ∀ claims, S.claims c.token = some claims → obj ∈ claims.bound →
        c.started ≤ (Runs.run (VerifierState.step S) (VerifierState.initial store now) as).now + LIVENESS_TTL := by
  intro c hc hpc
  constructor
  · have hsound := Runs.run_invariant (CacheSound S) (fun s a hs => hs.stepped hinj (step_cases a)) (as ++ bs)
      (cacheSound_initial store now)
    have hcall := hsound.calls c hc
    unfold CallSound at hcall
    rw [hpc] at hcall
    exact hcall
  · intro claims hclaims hbound
    have hstamped : Stamped (Runs.run (VerifierState.step S) (VerifierState.initial store now) as) :=
      Runs.run_invariant Stamped (fun s a hs => hs.stepped (step_cases a)) as (stamped_initial store now)
    have hinv := Runs.Along.invariant (Gone S obj _)
      (fun s a hs hC => hs.stepped hC.1 hC.2 (step_cases a)) hstamped.gone (hgone.and htimely)
    rw [← Runs.run_append] at hinv
    by_contra hlater
    have hpending := hinv.calls c hc (by omega) claims hclaims hbound
    rw [hpc] at hpending
    exact hpending

def botClaims : Claims :=
  { exp := 3600, aud := [ISSUER_AUDIENCE], sub := "system:serviceaccount:dev:bot", ns := "dev"
    serviceAccount := ("bot", "u1"), pod := none }

def botScheme : Scheme Unit Unit Unit where
  kidOf _ := some ()
  signed _ _ := true
  issuerOk _ := true
  claims _ := some botClaims
  hash _ := ()
  offset := 0
  capacity := 1

def botStore : AList (fun _ : String => LivenessCheckFields) :=
  AList.singleton "/registry/serviceaccounts/dev/bot" ⟨some "u1", none⟩

def bot : Bound := ("/registry/serviceaccounts/dev/bot", "u1")

def readThenRemove : List (VerifierAction Unit Unit) :=
  [.setKeyring [()], .begin () [], .step 0, .step 0, .step 0, .step 0, .step 0, .step 0, .step 0, .read 0 true,
    .tick nanos, .remove "/registry/serviceaccounts/dev/bot"]

theorem late_record_outlives_removal :
    Runs.Along (VerifierState.step botScheme) (fun s _ => ¬s.Holds bot)
        (Runs.run (VerifierState.step botScheme) (.initial botStore 0) readThenRemove)
        [.tick (3 * nanos), .step 0, .tick (4 * nanos), .begin () [], .step 1, .step 1, .step 1, .step 1, .step 1] ∧
      ∃ c ∈ (Runs.run (VerifierState.step botScheme) (.initial botStore 0) (readThenRemove ++
          [.tick (3 * nanos), .step 0, .tick (4 * nanos), .begin () [], .step 1, .step 1, .step 1, .step 1,
            .step 1])).calls,
        c.pc = .accepted ∧ bot ∈ botClaims.bound ∧
          (Runs.run (VerifierState.step botScheme) (.initial botStore 0) readThenRemove).now + LIVENESS_TTL <
            c.started := by
  decide +kernel

def rememberThenRemove : List (VerifierAction Unit Unit) :=
  readThenRemove.dropLast ++ [.step 0, .remove "/registry/serviceaccounts/dev/bot"]

def callsAfterRemoval : List (VerifierAction Unit Unit) :=
  [.tick (2 * nanos), .begin () [], .step 1, .step 1, .step 1, .step 1, .step 1, .tick (4 * nanos), .begin () [],
    .step 2, .step 2, .step 2, .step 2, .read 2 true]

theorem token_cache_faithful_bot :
    (Runs.run (VerifierState.step botScheme) (.initial botStore 0) (rememberThenRemove ++ callsAfterRemoval)).calls.map
        (fun c => (c.pc, c.hit.isSome)) = [(.live [], false), (.accepted, true), (.rejected, true)] ∧
      ∀ c ∈ (Runs.run (VerifierState.step botScheme) (.initial botStore 0)
          (rememberThenRemove ++ callsAfterRemoval)).calls,
        c.pc = .accepted →
        (∀ t, c.hit = some t → fullVerification botScheme c.keyring t c.token c.audiences = true) ∧
        ∀ claims, botScheme.claims c.token = some claims → bot ∈ claims.bound →
          c.started ≤ (Runs.run (VerifierState.step botScheme) (.initial botStore 0) rememberThenRemove).now +
            LIVENESS_TTL :=
  ⟨by decide +kernel, token_cache_faithful botScheme (fun _ _ _ => rfl) botStore 0 rememberThenRemove
    callsAfterRemoval bot (by decide +kernel) (by decide +kernel)⟩

end Liveness

end U7s.Auth
