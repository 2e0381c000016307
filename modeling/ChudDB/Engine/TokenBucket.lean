import ChudDB.Lib.Bytes

/-! # Rate limits

`TokenBucket` (`token_bucket.go`) and `UserLimiter` (`user_limiter.go`), which keeps a bucket for
each user. A bucket is filled up when a call is granted and not when one is refused: what has
accrued since the last grant is computed from the time of that grant. Times are whole seconds and
the refill rate is a whole number of tokens a second, so that their product is one, too, and exact
as a `float64` below `2 ^ 53`; the sum with the stored tokens is one of `int`, which wraps.

A window of calls is bounded by what is available at its first call (`count_granted_le`), and what
`CheckTokens` computes is what is available unless it overflows (`tokens_eq_available`). -/

namespace ChudDB
open Lib

/-- `TOKEN_REFILL_RATE` and `MAX_TOKEN` of the configuration. -/
structure BucketConfig where
  tokenRefillRate : Nat
  maxTokens : Nat
deriving DecidableEq, Repr

structure TokenBucket where
  currTokens : Int
  lastRefillTime : Int
deriving DecidableEq, Repr

inductive LimitError where
  | insufficientTokens
deriving DecidableEq, Repr

/-- The text of the error. -/
def LimitError.message : LimitError → String
  | .insufficientTokens => "insufficient tokens"

namespace TokenBucket
variable (cfg : BucketConfig)

/-- `GetNewTokenBucket`. -/
def getNewTokenBucket (now : Int) : TokenBucket := ⟨cfg.maxTokens, now⟩

/-- The conversion of a whole `float64` to `int`; out of range it is the smallest `int`, as amd64
has it. -/
def toInt (x : Int) : Int := if -2 ^ 63 ≤ x ∧ x < 2 ^ 63 then x else -2 ^ 63

/-- The tokens that `CheckTokens` finds. -/
def tokens (b : TokenBucket) (now : Int) : Int :=
  let elapsed := now - b.lastRefillTime
  let refilled := toInt (elapsed * cfg.tokenRefillRate)
  min ((b.currTokens + refilled).bmod (2 ^ 64)) cfg.maxTokens

/-- `CheckTokens`. -/
def checkTokens (b : TokenBucket) (now : Int) : Except LimitError Unit × TokenBucket :=
  let tokens := b.tokens cfg now
  if tokens < 1 then (.error .insufficientTokens, b)
  else (.ok (), ⟨tokens - 1, now⟩)

/-- The bucket after calls at some times. -/
def after (b : TokenBucket) (times : List Int) : TokenBucket :=
  times.foldl (fun b now => (b.checkTokens cfg now).2) b

/-- The times at which a call is granted. -/
def granted (b : TokenBucket) : List Int → List Int
  | [] => []
  | now :: times =>
    match b.checkTokens cfg now with
    | (.ok _, b) => now :: granted b times
    | (.error _, b) => granted b times

/-! ## One call -/

/-- The tokens stored and those accrued since, up to the maximum. -/
def available (b : TokenBucket) (now : Int) : Int :=
  min (b.currTokens + cfg.tokenRefillRate * (now - b.lastRefillTime)) cfg.maxTokens

/-- The number of tokens of a bucket is between 0 and the maximum. -/
structure Bounded (b : TokenBucket) : Prop where
  nonneg : 0 ≤ b.currTokens
  le : b.currTokens ≤ cfg.maxTokens

variable {cfg} {b : TokenBucket} {now : Int}

/-- What a call does. -/
theorem checkTokens_cases (cfg : BucketConfig) (b : TokenBucket) (now : Int) :
    (b.tokens cfg now < 1 ∧ b.checkTokens cfg now = (.error .insufficientTokens, b)) ∨
      (1 ≤ b.tokens cfg now ∧ b.checkTokens cfg now = (.ok (), ⟨b.tokens cfg now - 1, now⟩)) := by
  rw [checkTokens]
  by_cases h : b.tokens cfg now < 1
  · exact .inl ⟨h, if_pos h⟩
  · exact .inr ⟨not_lt.mp h, if_neg h⟩

theorem tokens_le : b.tokens cfg now ≤ cfg.maxTokens := min_le_right _ _

theorem accrued_nonneg (cfg : BucketConfig) {s t : Int} (h : s ≤ t) :
    0 ≤ (cfg.tokenRefillRate : Int) * (t - s) :=
  mul_nonneg (Int.natCast_nonneg _) (sub_nonneg.mpr h)

theorem Bounded.available_nonneg (h : b.Bounded cfg) (hnow : b.lastRefillTime ≤ now) :
    0 ≤ b.available cfg now :=
  le_min (add_nonneg h.nonneg (accrued_nonneg cfg hnow)) (Int.natCast_nonneg _)

/-- An overflow only makes the tokens fewer. -/
theorem Bounded.tokens_le_available (h : b.Bounded cfg) (hnow : b.lastRefillTime ≤ now) :
    b.tokens cfg now ≤ b.available cfg now := by
  have hcurr := h.nonneg
  have haccrued := accrued_nonneg cfg hnow
  rw [tokens, available, mul_comm (now - _)]
  refine min_le_min_right _ ?_
  rw [toInt, Int.bmod_def]
  split <;> split <;> omega

/-- Without an overflow the tokens are what is available. -/
theorem Bounded.tokens_eq_available (h : b.Bounded cfg) (hnow : b.lastRefillTime ≤ now)
    (hfits : cfg.maxTokens + cfg.tokenRefillRate * (now - b.lastRefillTime) < (2 : Int) ^ 63) :
    b.tokens cfg now = b.available cfg now := by
  have hcurr := h.nonneg
  have hle := h.le
  have haccrued := accrued_nonneg cfg hnow
  rw [tokens, available, mul_comm (now - _), toInt, if_pos (by omega), Int.bmod_def]
  congr 1
  split <;> omega

/-- Waiting adds at most what accrues. -/
theorem available_le_add (cfg : BucketConfig) (b : TokenBucket) (h : now ≤ now') :
    b.available cfg now' ≤ b.available cfg now + cfg.tokenRefillRate * (now' - now) := by
  have haccrued := accrued_nonneg cfg h
  have hsplit : (cfg.tokenRefillRate : Int) * (now' - b.lastRefillTime) =
      cfg.tokenRefillRate * (now - b.lastRefillTime) + cfg.tokenRefillRate * (now' - now) := by
    ring
  simp only [available, hsplit]
  omega

theorem Bounded.checkTokens (h : b.Bounded cfg) : ((b.checkTokens cfg now).2).Bounded cfg := by
  rcases checkTokens_cases cfg b now with ⟨-, heq⟩ | ⟨hpos, heq⟩
  · rw [heq]
    exact h
  · have hle : b.tokens cfg now ≤ cfg.maxTokens := tokens_le
    rw [heq]
    exact ⟨by simp only; omega, by simp only; omega⟩

theorem lastRefillTime_checkTokens (h : b.lastRefillTime ≤ now) :
    b.lastRefillTime ≤ (b.checkTokens cfg now).2.lastRefillTime ∧
      (b.checkTokens cfg now).2.lastRefillTime ≤ now := by
  rcases checkTokens_cases cfg b now with ⟨-, heq⟩ | ⟨-, heq⟩
  · rw [heq]
    exact ⟨le_refl _, h⟩
  · rw [heq]
    exact ⟨h, le_refl _⟩

theorem sorted_checkTokens {times : List Int}
    (hsorted : (b.lastRefillTime :: now :: times).Pairwise (· ≤ ·)) :
    ((b.checkTokens cfg now).2.lastRefillTime :: times).Pairwise (· ≤ ·) := by
  obtain ⟨hfirst, hrest⟩ := List.pairwise_cons.mp hsorted
  obtain ⟨hnow, htimes⟩ := List.pairwise_cons.mp hrest
  exact List.pairwise_cons.mpr ⟨fun t ht =>
    (lastRefillTime_checkTokens (hfirst now List.mem_cons_self)).2.trans (hnow t ht), htimes⟩

/-! ## Runs -/

theorem Bounded.after (h : b.Bounded cfg) (times : List Int) : (b.after cfg times).Bounded cfg := by
  induction times generalizing b with
  | nil => exact h
  | cons now times ih => exact ih h.checkTokens

/-- Whether a call is granted, as a number. -/
def grants (cfg : BucketConfig) (b : TokenBucket) (now : Int) : Nat :=
  if 1 ≤ b.tokens cfg now then 1 else 0

theorem granted_cons (b : TokenBucket) (now : Int) (times : List Int) :
    b.granted cfg (now :: times) = List.replicate (b.grants cfg now) now ++
      (b.checkTokens cfg now).2.granted cfg times := by
  rw [granted, grants]
  rcases checkTokens_cases cfg b now with ⟨hlt, heq⟩ | ⟨hle, heq⟩
  · rw [heq, if_neg (not_le.mpr hlt)]
    rfl
  · rw [heq, if_pos hle]
    rfl

/-- A call takes the token that it is granted. -/
theorem Bounded.available_checkTokens (h : b.Bounded cfg) (hnow : b.lastRefillTime ≤ now) :
    (b.grants cfg now : Int) + (b.checkTokens cfg now).2.available cfg now ≤ b.available cfg now := by
  rw [grants]
  rcases checkTokens_cases cfg b now with ⟨hlt, heq⟩ | ⟨hle, heq⟩
  · rw [heq, if_neg (not_le.mpr hlt), Nat.cast_zero, zero_add]
  · have htokens := h.tokens_le_available hnow
    rw [heq, if_pos hle, Nat.cast_one]
    simp only [available, sub_self, mul_zero, add_zero] at htokens ⊢
    omega

theorem granted_subset (b : TokenBucket) (times : List Int) : b.granted cfg times ⊆ times := by
  induction times generalizing b with
  | nil => exact List.Subset.refl []
  | cons now times ih =>
    rw [granted_cons]
    refine List.append_subset.mpr ⟨fun t ht => ?_, fun t ht => List.mem_cons_of_mem _ (ih _ ht)⟩
    rw [List.eq_of_mem_replicate ht]
    exact List.mem_cons_self

/-- Nothing is granted in front of the first call. -/
theorem count_granted_eq_zero {times : List Int} {t : Int}
    (hsorted : (now :: times).Pairwise (· ≤ ·)) (hgt : t < now) :
    (b.granted cfg (now :: times)).countP (fun τ => decide (τ ≤ t)) = 0 := by
  refine List.countP_eq_zero.mpr fun τ hτ hle => ?_
  have hnow : now ≤ τ := by
    rcases List.mem_cons.mp (granted_subset b _ hτ) with rfl | hmem
    · exact le_refl _
    · exact (List.pairwise_cons.mp hsorted).1 τ hmem
  exact absurd (of_decide_eq_true hle) (not_le.mpr (hgt.trans_le hnow))

/-- The grants up to a time are bounded by the tokens that are there at the start, and by what
accrues from then on. -/
theorem count_granted_le {start t : Int} {times : List Int} (h : b.Bounded cfg)
    (hstart : b.lastRefillTime ≤ start) (hsorted : (start :: times).Pairwise (· ≤ ·))
    (ht : start ≤ t) :
    ((b.granted cfg times).countP (fun τ => decide (τ ≤ t)) : Int) ≤
      b.available cfg start + cfg.tokenRefillRate * (t - start) := by
  induction times generalizing b start with
  | nil => exact add_nonneg (h.available_nonneg hstart) (accrued_nonneg _ ht)
  | cons now times ih =>
    obtain ⟨hfirst, hrest⟩ := List.pairwise_cons.mp hsorted
    have hnow : start ≤ now := hfirst now List.mem_cons_self
    rcases le_or_gt now t with hle | hgt
    · have hcall := h.available_checkTokens (hstart.trans hnow)
      have hwait := available_le_add cfg b hnow
      have hlater := ih h.checkTokens (lastRefillTime_checkTokens (hstart.trans hnow)).2 hrest hle
      have hsplit : (cfg.tokenRefillRate : Int) * (t - start) =
          cfg.tokenRefillRate * (now - start) + cfg.tokenRefillRate * (t - now) := by ring
      rw [granted_cons, List.countP_append, List.countP_replicate, if_pos (decide_eq_true hle),
        Nat.cast_add, hsplit]
      omega
    · rw [count_granted_eq_zero hrest hgt, Nat.cast_zero]
      exact add_nonneg (h.available_nonneg hstart) (accrued_nonneg _ ht)

/-- The grants in a window are bounded by the capacity and by what accrues in it. -/
theorem count_granted_window_le {s t : Int} {times : List Int} (h : b.Bounded cfg)
    (hsorted : (b.lastRefillTime :: times).Pairwise (· ≤ ·)) (hst : s ≤ t) :
    ((b.granted cfg times).countP (fun τ => decide (s ≤ τ ∧ τ ≤ t)) : Int) ≤
      cfg.maxTokens + cfg.tokenRefillRate * (t - s) := by
  have hmax : 0 ≤ (cfg.maxTokens : Int) := Int.natCast_nonneg _
  induction times generalizing b with
  | nil => exact add_nonneg hmax (accrued_nonneg _ hst)
  | cons now times ih =>
    obtain ⟨hfirst, hrest⟩ := List.pairwise_cons.mp hsorted
    have hlast : b.lastRefillTime ≤ now := hfirst now List.mem_cons_self
    rcases lt_or_ge now s with hbefore | hin
    · have hlater := ih h.checkTokens (sorted_checkTokens hsorted)
      rw [granted_cons, List.countP_append, List.countP_replicate, if_neg (by simp [hbefore]),
        Nat.zero_add]
      exact hlater
    · -- from here on the window is bounded by its end alone
      have hmono : (b.granted cfg (now :: times)).countP (fun τ => decide (s ≤ τ ∧ τ ≤ t)) ≤
          (b.granted cfg (now :: times)).countP (fun τ => decide (τ ≤ t)) :=
        List.countP_mono_left fun τ _ hτ => decide_eq_true (of_decide_eq_true hτ).2
      rcases le_or_gt now t with hle | hgt
      · have hbound := count_granted_le h hlast
          (List.pairwise_cons.mpr ⟨fun τ hτ => ?_, hrest⟩) hle
        · have hmax : b.available cfg now ≤ cfg.maxTokens := min_le_right _ _
          have hsplit : (cfg.tokenRefillRate : Int) * (t - s) =
              cfg.tokenRefillRate * (now - s) + cfg.tokenRefillRate * (t - now) := by ring
          have haccrued := accrued_nonneg cfg hin
          omega
        · rcases List.mem_cons.mp hτ with rfl | hmem
          · exact le_refl _
          · exact (List.pairwise_cons.mp hrest).1 τ hmem
      · rw [count_granted_eq_zero hrest hgt] at hmono
        have haccrued := accrued_nonneg cfg hst
        omega

/-- The last grant was made between the creation and the last call. -/
theorem lastRefillTime_after (cfg : BucketConfig) (b : TokenBucket) {times : List Int}
    (hsorted : (b.lastRefillTime :: (times ++ [now])).Pairwise (· ≤ ·)) :
    b.lastRefillTime ≤ (b.after cfg times).lastRefillTime ∧
      (b.after cfg times).lastRefillTime ≤ now := by
  induction times generalizing b with
  | nil => exact ⟨le_refl _, (List.pairwise_cons.mp hsorted).1 now List.mem_cons_self⟩
  | cons first times ih =>
    obtain ⟨hlast, hend⟩ := ih _ (sorted_checkTokens hsorted)
    exact ⟨(lastRefillTime_checkTokens
      ((List.pairwise_cons.mp hsorted).1 first List.mem_cons_self)).1.trans hlast, hend⟩

theorem bounded_getNewTokenBucket (cfg : BucketConfig) (created : Int) :
    (getNewTokenBucket cfg created).Bounded cfg :=
  ⟨Int.natCast_nonneg _, le_refl _⟩

/-- A bucket that is created full and then asked at non-decreasing times. The grants of a window are
bounded by the capacity and the rate, the number of tokens stays in bounds, and a call is refused
only if the tokens stored and accrued, up to the capacity, are below one; then nothing changes. The
numbers stay where a `float64` is exact, and so far from an overflow. -/
theorem checkTokens_rate_bound (cfg : BucketConfig) (created : Int) {times : List Int}
    (hsorted : (created :: times).Pairwise (· ≤ ·))
    (hfits : ∀ t ∈ times, cfg.maxTokens + cfg.tokenRefillRate * (t - created) < (2 : Int) ^ 53) :
    let b := getNewTokenBucket cfg created
    (∀ s t, s ≤ t → ((b.granted cfg times).countP (fun τ => decide (s ≤ τ ∧ τ ≤ t)) : Int) ≤
      cfg.maxTokens + cfg.tokenRefillRate * (t - s)) ∧
    (∀ past, past <+: times →
      0 ≤ (b.after cfg past).currTokens ∧ (b.after cfg past).currTokens ≤ cfg.maxTokens) ∧
    ∀ past now, past ++ [now] <+: times → ∀ e b',
      (b.after cfg past).checkTokens cfg now = (.error e, b') →
      min ((b.after cfg past).currTokens +
        cfg.tokenRefillRate * (now - (b.after cfg past).lastRefillTime)) cfg.maxTokens < 1 ∧
      b' = b.after cfg past := by
  intro b
  have hbounded := bounded_getNewTokenBucket cfg created
  refine ⟨fun s t => count_granted_window_le hbounded hsorted, fun past _ => ?_, ?_⟩
  · exact ⟨(hbounded.after past).nonneg, (hbounded.after past).le⟩
  · intro past now hpast e b' hrefused
    rcases checkTokens_cases cfg (b.after cfg past) now with ⟨hlt, heq⟩ | ⟨-, heq⟩
    · rw [heq] at hrefused
      cases hrefused
      obtain ⟨hcreated, hlast⟩ := lastRefillTime_after cfg b
        (hsorted.sublist (hpast.sublist.cons_cons created))
      have hless : (cfg.tokenRefillRate : Int) * (now - (b.after cfg past).lastRefillTime) ≤
          cfg.tokenRefillRate * (now - created) :=
        mul_le_mul_of_nonneg_left (Int.sub_le_sub_left hcreated now) (Int.natCast_nonneg _)
      have hsum := hfits now (hpast.subset (List.mem_append_right _ List.mem_cons_self))
      have havail := (hbounded.after past).tokens_eq_available hlast
        (lt_of_le_of_lt (Int.add_le_add_left hless _) (hsum.trans (by decide)))
      exact ⟨lt_of_eq_of_lt havail.symm hlt, rfl⟩
    · rw [heq] at hrefused
      cases hrefused

/-- Two tokens and one more each second, and calls at 10, 10, 10 and 11: the third is refused. -/
theorem checkTokens_rate_bound_burst :
    let cfg : BucketConfig := ⟨1, 2⟩
    let b := getNewTokenBucket cfg 10
    b.granted cfg [10, 10, 10, 11] = [10, 10, 11] ∧
      ∀ s t, s ≤ t → ((b.granted cfg [10, 10, 10, 11]).countP
        (fun τ => decide (s ≤ τ ∧ τ ≤ t)) : Int) ≤ 2 + 1 * (t - s) :=
  ⟨by decide, (checkTokens_rate_bound ⟨1, 2⟩ 10 (by decide) (by decide)).1⟩

/-- A bucket of capacity 0 refuses a call although a token has accrued; and with the largest `int`
as capacity the sum wraps, and the second call is refused. -/
theorem empty_capacity_refuses :
    (let cfg : BucketConfig := ⟨1, 0⟩
    let b := getNewTokenBucket cfg 0
    (b.checkTokens cfg 1).1 = .error .insufficientTokens ∧
      ¬ b.currTokens + cfg.tokenRefillRate * (1 - b.lastRefillTime) < 1) ∧
    let cfg : BucketConfig := ⟨100, 9223372036854775807⟩
    let b := (getNewTokenBucket cfg 0).after cfg [0]
    (b.checkTokens cfg 1).1 = .error .insufficientTokens ∧ ¬ b.available cfg 1 < 1 := by
  decide

end TokenBucket

/-! ## A bucket for each user -/

abbrev User := Bytes

/-- `UserLimiter`. -/
structure UserLimiter where
  data : User → Option TokenBucket

/-- A call of `CheckUserTokens`: the clock is read for a new bucket, and again by `CheckTokens`. -/
structure UserCall where
  user : User
  created : Int
  now : Int
deriving DecidableEq, Repr

namespace UserLimiter
open TokenBucket
variable (cfg : BucketConfig)

/-- `NewUserLimiter`. -/
def newUserLimiter : UserLimiter := ⟨fun _ => none⟩

/-- The bucket of a user, made if there is none. -/
def bucket (ul : UserLimiter) (call : UserCall) : TokenBucket :=
  (ul.data call.user).getD (getNewTokenBucket cfg call.created)

/-- `CheckUserTokens`. -/
def checkUserTokens (ul : UserLimiter) (call : UserCall) : Except LimitError Unit × UserLimiter :=
  let (result, bucket) := (ul.bucket cfg call).checkTokens cfg call.now
  (result, ⟨Function.update ul.data call.user (some bucket)⟩)

/-- The times at which calls of a user are granted. -/
def grantedTo (user : User) (ul : UserLimiter) : List UserCall → List Int
  | [] => []
  | call :: calls =>
    let (result, ul) := ul.checkUserTokens cfg call
    if call.user = user ∧ result = .ok () then call.now :: grantedTo user ul calls
    else grantedTo user ul calls

/-- The calls of a user. -/
def callsOf (user : User) (calls : List UserCall) : List UserCall := calls.filter (·.user = user)

variable {cfg} {ul : UserLimiter} {user : User}

theorem callsOf_cons_self (call : UserCall) (calls : List UserCall) :
    callsOf call.user (call :: calls) = call :: callsOf call.user calls :=
  List.filter_cons_of_pos (decide_eq_true (Eq.refl call.user))

theorem callsOf_cons_of_ne {call : UserCall} (h : call.user ≠ user) (calls : List UserCall) :
    callsOf user (call :: calls) = callsOf user calls :=
  List.filter_cons_of_neg (by simpa using h)

theorem data_checkUserTokens_self (call : UserCall) (ul : UserLimiter) :
    (ul.checkUserTokens cfg call).2.data call.user =
      some ((ul.bucket cfg call).checkTokens cfg call.now).2 :=
  Function.update_self ..

theorem data_checkUserTokens_of_ne {call : UserCall} (h : call.user ≠ user) :
    (ul.checkUserTokens cfg call).2.data user = ul.data user :=
  Function.update_of_ne h.symm ..

theorem grantedTo_cons_of_ne {call : UserCall} (h : call.user ≠ user) (calls : List UserCall) :
    ul.grantedTo cfg user (call :: calls) =
      (ul.checkUserTokens cfg call).2.grantedTo cfg user calls := by
  rw [grantedTo]
  exact if_neg fun hgranted => h hgranted.1

theorem grantedTo_cons_self (call : UserCall) (calls : List UserCall) :
    ul.grantedTo cfg call.user (call :: calls) =
      List.replicate ((ul.bucket cfg call).grants cfg call.now) call.now ++
        (ul.checkUserTokens cfg call).2.grantedTo cfg call.user calls := by
  rw [grantedTo, grants]
  rcases checkTokens_cases cfg (ul.bucket cfg call) call.now with ⟨hlt, heq⟩ | ⟨hle, heq⟩
  · rw [if_neg (not_le.mpr hlt)]
    refine if_neg fun hgranted => ?_
    have hresult : ((ul.bucket cfg call).checkTokens cfg call.now).1 = .ok () := hgranted.2
    rw [heq] at hresult
    cases hresult
  · rw [if_pos hle]
    refine if_pos ⟨rfl, ?_⟩
    change ((ul.bucket cfg call).checkTokens cfg call.now).1 = .ok ()
    rw [heq]

/-- The calls of a user that has a bucket are calls on that bucket. -/
theorem grantedTo_eq_of_some {b : TokenBucket} (h : ul.data user = some b)
    (calls : List UserCall) :
    ul.grantedTo cfg user calls = b.granted cfg ((callsOf user calls).map UserCall.now) := by
  induction calls generalizing ul b with
  | nil => rfl
  | cons call calls ih =>
    by_cases huser : call.user = user
    · subst huser
      have hbucket : ul.bucket cfg call = b := by rw [bucket, h, Option.getD_some]
      rw [grantedTo_cons_self, ih (data_checkUserTokens_self call ul), hbucket, callsOf_cons_self,
        List.map_cons, granted_cons]
    · rw [grantedTo_cons_of_ne huser, ih ((data_checkUserTokens_of_ne huser).trans h),
        callsOf_cons_of_ne huser]

/-- The calls of a user that has no bucket are calls on one that the first of them creates. -/
theorem grantedTo_eq_of_none (h : ul.data user = none) {calls : List UserCall} {first : UserCall}
    {rest : List UserCall} (hcalls : callsOf user calls = first :: rest) :
    ul.grantedTo cfg user calls =
      (getNewTokenBucket cfg first.created).granted cfg ((first :: rest).map UserCall.now) := by
  induction calls generalizing ul with
  | nil => cases hcalls
  | cons call calls ih =>
    by_cases huser : call.user = user
    · subst huser
      have hbucket : ul.bucket cfg call = getNewTokenBucket cfg call.created := by
        rw [bucket, h, Option.getD_none]
      rw [callsOf_cons_self] at hcalls
      obtain ⟨rfl, hrest⟩ := List.cons.inj hcalls
      rw [grantedTo_cons_self, grantedTo_eq_of_some (data_checkUserTokens_self call ul), hbucket,
        List.map_cons, granted_cons, ← hrest]
    · rw [callsOf_cons_of_ne huser] at hcalls
      rw [grantedTo_cons_of_ne huser]
      exact ih ((data_checkUserTokens_of_ne huser).trans h) hcalls

theorem grantedTo_eq_nil {calls : List UserCall} (hcalls : callsOf user calls = []) :
    ul.grantedTo cfg user calls = [] := by
  induction calls generalizing ul with
  | nil => rfl
  | cons call calls ih =>
    have huser : call.user ≠ user := by
      rintro rfl
      rw [callsOf_cons_self] at hcalls
      cases hcalls
    rw [callsOf_cons_of_ne huser] at hcalls
    rw [grantedTo_cons_of_ne huser, ih hcalls]

/-- What the clock shows along calls. -/
def clock (calls : List UserCall) : List Int := calls.flatMap fun call => [call.created, call.now]

theorem map_now_sublist_clock (calls : List UserCall) :
    (calls.map UserCall.now).Sublist (clock calls) := by
  induction calls with
  | nil => exact .slnil
  | cons call calls ih => exact (ih.cons_cons call.now).cons call.created

/-- With a clock that does not go back, the limiter bounds the calls of each user in a window. -/
theorem count_grantedTo_le {s t : Int} {calls : List UserCall}
    (hclock : (clock calls).Pairwise (· ≤ ·)) (hst : s ≤ t) :
    ((newUserLimiter.grantedTo cfg user calls).countP (fun τ => decide (s ≤ τ ∧ τ ≤ t)) : Int) ≤
      cfg.maxTokens + cfg.tokenRefillRate * (t - s) := by
  cases hcalls : callsOf user calls with
  | nil =>
    rw [grantedTo_eq_nil hcalls]
    exact add_nonneg (Int.natCast_nonneg _) (accrued_nonneg _ hst)
  | cons first rest =>
    have hall : (clock (first :: rest)).Sublist (clock calls) := by
      rw [← hcalls]
      exact List.filter_sublist.flatMap _
    have hsub : (first.created :: (first :: rest).map UserCall.now).Sublist (clock calls) :=
      (((map_now_sublist_clock rest).cons_cons first.now).cons_cons first.created).trans hall
    rw [grantedTo_eq_of_none rfl hcalls]
    exact count_granted_window_le (bounded_getNewTokenBucket ..) (hclock.sublist hsub) hst

/-- One token and one more each second: the second call of user 0 is refused, that of user 1 is
granted. -/
theorem count_grantedTo_le_two_users :
    ((newUserLimiter.grantedTo ⟨1, 1⟩ [0] [⟨[0], 5, 5⟩, ⟨[1], 5, 5⟩, ⟨[0], 5, 5⟩]).countP
      (fun τ => decide (5 ≤ τ ∧ τ ≤ 5)) : Int) ≤ 1 + 1 * (5 - 5) :=
  count_grantedTo_le (by decide) (by decide)

end UserLimiter
end ChudDB
