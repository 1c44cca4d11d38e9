import Ez4.Local.Lambda
import Ez4.Queue.Claims
import Ez4.Library.KeyedMap

/-! # The claims of the local queue

`createLocalClaims` (`claims.ts`): a map that holds the keys like the claims
table of the queue runtime does, counting time in milliseconds and dropping
expired keys only when there are many. -/
namespace Ez4.Local.Claims
open Ez4.Library Ez4.Queue.Messages Ez4.Queue.ProcessRecord Ez4.Queue.Claims Ez4.Local.Lambda

/-- The map, in which an expiration is the `expiresAt` of the source. -/
abbrev LocalClaims := KeyedMap (Prod.fst : ClaimKey × StoredClaim → ClaimKey)

def sweepThreshold : Nat := 10000

namespace LocalClaims

variable (claims : LocalClaims)

def sweepExpired (now : Int) : LocalClaims :=
  ⟨claims.values.filter fun (_, claim) => ¬ claim.expiration ≤ now,
    claims.nodup.sublist (List.filter_sublist.map Prod.fst)⟩

/-- The map `take` looks its key up in. -/
def swept (now : Int) : LocalClaims :=
  if claims.values.length ≥ sweepThreshold then sweepExpired claims now else claims

/-- What `claims.get` gives. -/
def claimAt (key : ClaimKey) : Option StoredClaim := (claims.get? key).map Prod.snd

def takeNew (key : ClaimKey) (lease : Nat) (owner : Uuid) (now : Int) : LocalClaims × ClaimResult :=
  (claims.set (key, ⟨.running, owner, now + lease⟩), .taken owner)

def take (key : ClaimKey) (lease : Nat) (owner : Uuid) (now : Int) : LocalClaims × ClaimResult :=
  let claims := swept claims now
  match claimAt claims key with
  | some current =>
    if current.expiration > now then
      (claims, if current.state = .running then .busy else .done)
    else takeNew claims key lease owner now
  | none => takeNew claims key lease owner now

def keep (claim : HeldClaim) (state : ClaimState) (ttl : Nat) (now : Int) : LocalClaims :=
  match claimAt claims claim.key with
  | some current =>
    if current.owner = claim.owner then
      claims.set (claim.key, { current with state, expiration := now + ttl })
    else claims
  | none => claims

def release (claim : HeldClaim) : LocalClaims :=
  if (claimAt claims claim.key).map StoredClaim.owner = some claim.owner then claims.erase claim.key
  else claims

end LocalClaims

open LocalClaims

variable {claims : LocalClaims} {now : Int}

/-- The map as a claims table, counted in milliseconds. -/
def tableOf (claims : LocalClaims) : ClaimsTable := claimAt claims

theorem tableOf_eq_some {key : ClaimKey} {claim : StoredClaim} :
    tableOf claims key = some claim ↔ (key, claim) ∈ claims.values := by
  unfold tableOf claimAt
  rw [Option.map_eq_some_iff]
  constructor
  · rintro ⟨⟨k, claim⟩, hget, rfl⟩
    obtain rfl := KeyedMap.key_of_get? hget
    exact KeyedMap.mem_of_get? hget
  · exact fun hm => ⟨(key, claim), KeyedMap.get?_of_mem hm, rfl⟩

theorem tableOf_set (key : ClaimKey) (claim : StoredClaim) :
    tableOf (claims.set (key, claim)) = put (tableOf claims) key (some claim) := by
  funext k
  unfold tableOf claimAt put
  rw [KeyedMap.get?_set]
  by_cases hk : key = k
  · simp [hk]
  · simp [hk, Ne.symm hk]

theorem tableOf_erase (key : ClaimKey) :
    tableOf (claims.erase key) = put (tableOf claims) key none := by
  funext k
  unfold tableOf claimAt put
  rw [KeyedMap.get?_erase]
  split <;> rfl

/-! ## The same as the claims table -/

/-- The table deleted some of its items, which had expired. -/
def Expires (now : Int) (before after : ClaimsTable) : Prop :=
  ∀ key, after key = before key ∨
    after key = none ∧ ∃ claim, before key = some claim ∧ claim.expiration ≤ now

theorem tableOf_sweepExpired {key : ClaimKey} {claim : StoredClaim} :
    tableOf (sweepExpired claims now) key = some claim ↔
      tableOf claims key = some claim ∧ ¬ claim.expiration ≤ now := by
  rw [tableOf_eq_some, tableOf_eq_some, sweepExpired, List.mem_filter, decide_eq_true_eq]

theorem expires_swept (claims : LocalClaims) (now : Int) :
    Expires now (tableOf claims) (tableOf (swept claims now)) := by
  intro key
  unfold swept
  split
  · cases hafter : tableOf (sweepExpired claims now) key with
    | some claim => exact .inl (tableOf_sweepExpired.mp hafter).1.symm
    | none =>
      cases hbefore : tableOf claims key with
      | none => exact .inl rfl
      | some claim =>
        refine .inr ⟨rfl, claim, rfl, ?_⟩
        by_contra hlive
        rw [tableOf_sweepExpired.mpr ⟨hbefore, hlive⟩] at hafter
        cases hafter
  · exact .inl rfl

/-- What `take` returns for an answer of the table. -/
def resultOf : Answer → Option ClaimResult
  | .claimed owner => some (.taken owner)
  | .refused .running => some .busy
  | .refused _ => some .done
  | _ => none

/-- Taking a key is the conditional write of the table, once some keys expired. -/
theorem take_as_table (claims : LocalClaims) (key : ClaimKey) (lease : Nat) (owner : Uuid)
    (now : Int) :
    takeClaim (tableOf (swept claims now)) key lease owner now =
        (tableOf (take claims key lease owner now).1,
          (takeClaim (tableOf (swept claims now)) key lease owner now).2) ∧
      resultOf (takeClaim (tableOf (swept claims now)) key lease owner now).2 =
        some (take claims key lease owner now).2 := by
  have hnew : takeNew (swept claims now) key lease owner now =
      ((swept claims now).set (key, ⟨.running, owner, now + lease⟩), .taken owner) := rfl
  unfold takeClaim take
  dsimp only
  cases hat : claimAt (swept claims now) key with
  | none =>
    have htable : tableOf (swept claims now) key = none := hat
    rw [htable, hnew, tableOf_set]
    exact ⟨rfl, rfl⟩
  | some current =>
    have htable : tableOf (swept claims now) key = some current := hat
    rw [htable]
    dsimp only
    by_cases hlive : current.expiration > now
    · rw [if_neg (not_le.mpr hlive), if_pos hlive]
      refine ⟨rfl, ?_⟩
      cases current.state <;> rfl
    · rw [if_pos (not_lt.mp hlive), if_neg hlive, hnew, tableOf_set]
      exact ⟨rfl, rfl⟩

theorem keep_as_table (claims : LocalClaims) (claim : HeldClaim) (state : ClaimState) (ttl : Nat)
    (now : Int) :
    (keepClaim (tableOf claims) claim state ttl now).1 =
      tableOf (keep claims claim state ttl now) := by
  unfold keepClaim keep
  cases hat : claimAt claims claim.key with
  | none =>
    have htable : tableOf claims claim.key = none := hat
    rw [htable]
  | some current =>
    have htable : tableOf claims claim.key = some current := hat
    rw [htable]
    dsimp only
    split
    · exact (tableOf_set _ _).symm
    · rfl

theorem release_as_table (claims : LocalClaims) (claim : HeldClaim) :
    (releaseClaim (tableOf claims) claim).1 = tableOf (release claims claim) := by
  unfold releaseClaim release
  cases hat : claimAt claims claim.key with
  | none =>
    have htable : tableOf claims claim.key = none := hat
    rw [htable]
    rfl
  | some current =>
    have htable : tableOf claims claim.key = some current := hat
    rw [htable, Option.map_some]
    dsimp only
    by_cases howner : current.owner = claim.owner
    · rw [if_pos howner, if_pos (congrArg some howner), tableOf_erase]
    · rw [if_neg howner, if_neg fun h => howner (Option.some.inj h)]

theorem resultOf_keepClaim {table : ClaimsTable} {claim : HeldClaim} {state : ClaimState}
    {ttl : Nat} : resultOf (keepClaim table claim state ttl now).2 = none := by
  unfold keepClaim
  split
  · rfl
  · split <;> rfl

theorem resultOf_releaseClaim {table : ClaimsTable} {claim : HeldClaim} :
    resultOf (releaseClaim table claim).2 = none := by
  unfold releaseClaim
  split
  · rfl
  · split <;> rfl

/-! ## Any run of requests -/

/-- A request with the owner it gives a new claim, and its time. -/
structure TimedRequest where
  request : ClaimRequest
  owner : Uuid
  now : Int
deriving DecidableEq, Repr

def TimedRequest.apply (r : TimedRequest) (claims : LocalClaims) :
    LocalClaims × Option ClaimResult :=
  match r.request with
  | .take key lease =>
    let (claims, result) := take claims key lease r.owner r.now
    (claims, some result)
  | .keep claim state ttl => (keep claims claim state ttl r.now, none)
  | .release claim => (release claims claim, none)

/-- The map after some requests, and what they returned. -/
def runRequests (claims : LocalClaims) : List TimedRequest → LocalClaims × List (Option ClaimResult)
  | [] => (claims, [])
  | r :: rest =>
    let (claims, result) := r.apply claims
    let (claims, results) := runRequests claims rest
    (claims, result :: results)

/-- The requests sent to a claims table, which deletes items that expired. -/
inductive TableRun : ClaimsTable → List TimedRequest → ClaimsTable → List (Option ClaimResult) → Prop
  | nil (table : ClaimsTable) : TableRun table [] table []
  | cons {table expired after : ClaimsTable} {r : TimedRequest} {rest : List TimedRequest}
      {results : List (Option ClaimResult)} (expires : Expires r.now table expired)
      (run : TableRun (r.request.apply expired r.owner r.now).1 rest after results) :
      TableRun table (r :: rest) after
        (resultOf (r.request.apply expired r.owner r.now).2 :: results)

theorem Expires.refl (now : Int) (table : ClaimsTable) : Expires now table table := fun _ => .inl rfl

theorem apply_as_table (r : TimedRequest) (claims : LocalClaims) :
    ∃ expired, Expires r.now (tableOf claims) expired ∧
      (r.request.apply expired r.owner r.now).1 = tableOf (r.apply claims).1 ∧
      resultOf (r.request.apply expired r.owner r.now).2 = (r.apply claims).2 := by
  unfold TimedRequest.apply ClaimRequest.apply
  cases r.request with
  | take key lease =>
    obtain ⟨htable, hresult⟩ := take_as_table claims key lease r.owner r.now
    exact ⟨_, expires_swept claims r.now, congrArg Prod.fst htable, hresult⟩
  | keep claim state ttl =>
    exact ⟨_, .refl _ _, keep_as_table claims claim state ttl r.now, resultOf_keepClaim⟩
  | release claim =>
    exact ⟨_, .refl _ _, release_as_table claims claim, resultOf_releaseClaim⟩

/-- **The local claims hold the keys like the claims table does**: whatever is
asked of them, some table that deletes expired items answers the same. -/
theorem createLocalClaims_as_table (requests : List TimedRequest) (claims : LocalClaims) :
    TableRun (tableOf claims) requests (tableOf (runRequests claims requests).1)
      (runRequests claims requests).2 := by
  induction requests generalizing claims with
  | nil => exact .nil _
  | cons r rest ih =>
    obtain ⟨expired, hexpires, htable, hresult⟩ := apply_as_table r claims
    have hrest := ih (r.apply claims).1
    rw [← htable] at hrest
    have hrun := TableRun.cons hexpires hrest
    rw [hresult] at hrun
    exact hrun

end Ez4.Local.Claims
