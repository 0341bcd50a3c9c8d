import Mathlib.Algebra.Order.Ring.Int
import Mathlib.Data.List.Basic
import Mathlib.Tactic.SplitIfs
import Bindery.Repository.Client

/-!
# The course of trying

An operation that is tried again is called and paused for in turns (`Course`). It goes on after a call
only if the call failed for a reason that may pass and the pause was not cut off (`GoesOn`), so that the
last call alone decides how it ends (`Ends`). Which reasons may pass follows from how a failure is sorted:
of the failures to clone, those of authentication, of what is not found and of unknown protocols are
there to stay.
-/

namespace Bindery.Repository

open Text (bytes)

variable {α : Type}

/-! ## Courses -/

section Course

variable (p : Backoff) (operation url : Bytes) (attempt : Nat → Except Fault α) (cancelled : Nat → Bool)

/-- What follows the `k`-th call if trying goes on: one pause, as long as the failure calls for. -/
def breakAfter (k : Nat) : List Event :=
  match attempt k with
  | .ok _ => []
  | .error f => [.pause (pauseAfter p k f)]

/-- Trying goes on after the `k`-th call: it failed for a reason that may pass, and the pause after it
was not cut off. -/
def GoesOn (k : Nat) : Prop :=
  ∃ f, attempt k = .error f ∧ isPermanent f = false ∧ cancelled k = false

/-- How trying ends with the `n`-th call: what still happens after it, and what comes of it. -/
inductive Ends (n : Nat) : List Event → Except Fault α → Prop
  | success {a : α} (hcall : attempt n = .ok a) : Ends n [] (.ok a)
  | permanent {f : Fault} (hcall : attempt n = .error f) (hpermanent : isPermanent f = true) :
      Ends n [] (.error f)
  | cancelled {f : Fault} (hcall : attempt n = .error f) (hpermanent : isPermanent f = false)
      (hleft : (n : Int) ≤ p.retries.toInt) (hcancelled : cancelled n = true) :
      Ends n [.pause (pauseAfter p n f)] (.error (cancellation operation url .cancelled))
  | exhausted {f : Fault} (hcall : attempt n = .error f) (hpermanent : isPermanent f = false)
      (hleft : (n : Int) = p.retries.toInt + 1) :
      Ends n [] (.error (exhaustion p operation url (some f)))

/-- The course of a trial that ends with the `n`-th call. -/
structure Course (n : Nat) (t : Trial α) : Prop where
  one_le : 1 ≤ n
  le : (n : Int) ≤ p.retries.toInt + 1
  calls_eq : t.calls = n
  /-- Every call before the last was one to go on after. -/
  goesOn : ∀ k, 1 ≤ k → k < n → GoesOn attempt cancelled k
  /-- Each call before the last is followed by one pause, and the last call by the end. -/
  ends : ∃ tail,
    t.events = (List.range' 1 (n - 1)).flatMap (fun k => .call :: breakAfter p attempt k)
      ++ .call :: tail ∧
    Ends p operation url attempt cancelled n tail t.result

end Course

section Run

variable {p : Backoff} {operation url : Bytes} {attempt : Nat → Except Fault α} {cancelled : Nat → Bool}

theorem Ends.count_call {n : Nat} {tail : List Event} {result : Except Fault α}
    (h : Ends p operation url attempt cancelled n tail result) : tail.count .call = 0 := by
  cases h <;> rfl

theorem count_call_breakAfter (k : Nat) : (breakAfter p attempt k).count .call = 0 := by
  rw [breakAfter]
  split <;> rfl

theorem count_call_rounds (ks : List Nat) :
    (ks.flatMap fun k => .call :: breakAfter p attempt k).count .call = ks.length := by
  induction ks with
  | nil => rfl
  | cons k ks ih =>
    rw [List.flatMap_cons, List.count_append, List.count_cons_self, count_call_breakAfter, ih,
      List.length_cons, Nat.zero_add, Nat.add_comm]

/-- Trying from the `n`-th call on goes on for some calls and ends with the next one. The retries that
are left are those that the calls before did not use. -/
theorem tryFrom_course (left n : Nat) (hleft : (n + left : Int) = p.retries.toInt + 1) :
    ∃ m tail, m ≤ left ∧ (∀ k, n ≤ k → k < n + m → GoesOn attempt cancelled k) ∧
      (tryFrom p operation url attempt cancelled left n).events =
        (List.range' n m).flatMap (fun k => .call :: breakAfter p attempt k) ++ .call :: tail ∧
      Ends p operation url attempt cancelled (n + m) tail
        (tryFrom p operation url attempt cancelled left n).result := by
  have hnone : ∀ k, n ≤ k → k < n + 0 → GoesOn attempt cancelled k := by omega
  -- On the retries left: they and the number of the call add up to what the policy allows, so that the
  -- call without a retry left is the last one that is allowed.
  induction left generalizing n with
  | zero =>
    refine ⟨0, [], Nat.le_refl 0, hnone, ?_⟩
    rw [tryFrom]
    split
    · next a hcall => exact ⟨rfl, .success hcall⟩
    · next f hcall =>
      split
      · next hpermanent => exact ⟨rfl, .permanent hcall hpermanent⟩
      · next hpermanent => exact ⟨rfl, .exhausted hcall (by simpa using hpermanent) (by simpa using hleft)⟩
  | succ left ih =>
    rw [tryFrom]
    split
    · next a hcall => exact ⟨0, [], Nat.zero_le _, hnone, rfl, .success hcall⟩
    · next f hcall =>
      split
      · next hpermanent => exact ⟨0, [], Nat.zero_le _, hnone, rfl, .permanent hcall hpermanent⟩
      · next hpermanent =>
        have hpasses : isPermanent f = false := by simpa using hpermanent
        cases hcancelled : cancelled n with
        | true =>
          refine ⟨0, _, Nat.zero_le _, hnone, rfl, .cancelled hcall hpasses ?_ hcancelled⟩
          omega
        | false =>
          -- One round, and then the course from the next call on.
          obtain ⟨m, tail, hm, hgoes, hevents, hends⟩ := ih (n + 1) (by push_cast at hleft ⊢; omega)
            (by omega)
          have hround : breakAfter p attempt n = [.pause (pauseAfter p n f)] := by rw [breakAfter, hcall]
          refine ⟨m + 1, tail, Nat.succ_le_succ hm, fun k hlow hhigh => ?_, ?_, ?_⟩
          · rcases Nat.eq_or_lt_of_le hlow with rfl | hlater
            · exact ⟨f, hcall, hpasses, hcancelled⟩
            · exact hgoes k hlater (by omega)
          · simp only [sleep, hevents, List.range'_succ, List.flatMap_cons, hround]
            rfl
          · rw [Nat.add_right_comm] at hends
            exact hends

/-- **The course of a trial.** -/
theorem withRetries_course (hretries : 0 ≤ p.retries) :
    ∃ n, Course p operation url attempt cancelled n (withRetries p operation url attempt cancelled) := by
  have hnonneg : 0 ≤ p.retries.toInt := Int64.le_iff_toInt_le.1 hretries
  obtain ⟨r, hr⟩ := Int.eq_ofNat_of_zero_le hnonneg
  have hrun : withRetries p operation url attempt cancelled =
      tryFrom p operation url attempt cancelled r 1 := by
    rw [withRetries, hr]
    rfl
  obtain ⟨m, tail, hm, hgoes, hevents, hends⟩ :=
    @tryFrom_course α p operation url attempt cancelled r 1 (by rw [hr]; omega)
  rw [hrun]
  rw [Nat.add_comm] at hgoes hends
  refine ⟨m + 1, Nat.le_add_left 1 m, by rw [hr]; omega, ?_, hgoes, tail, hevents, hends⟩
  rw [Trial.calls, hevents, List.count_append, count_call_rounds, List.count_cons_self, hends.count_call,
    List.length_range']

theorem isCancelled_cancellation (operation url : Bytes) :
    (cancellation operation url .cancelled).isCancelled = true := rfl

/-- The fault of an operation that failed too often wraps the last failure, and counts the attempts. -/
theorem exists_exhaustion (p : Backoff) (operation url : Bytes) (f : Fault) :
    ∃ report, exhaustion p operation url (some f) = .classified report (some f) ∧
      Context.get? report.context "attempts" = some (.int (p.retries + 1).toInt) := ⟨_, rfl, rfl⟩

/-- The attempts that a policy allows, as long as a word counts them. -/
theorem toInt_attempts (hretries : 0 ≤ p.retries) (hmax : p.retries ≠ Int64.maxValue) :
    (p.retries + 1).toInt = p.retries.toInt + 1 := by
  have hnonneg := Int64.le_iff_toInt_le.1 hretries
  have hlt := p.retries.toInt_lt
  have hne : p.retries.toInt ≠ 2 ^ 63 - 1 := fun heq => hmax (Int64.toInt_inj.1 heq)
  rw [Int64.toInt_zero] at hnonneg
  rw [Int64.toInt_add, Int64.toInt_one]
  exact Int.bmod_eq_of_le_mul_two (by omega) (by omega)

end Run

/-! ## Failures that stay -/

/-- The failures from outside: nothing in their chain is classified, or a failure to clone that is sorted
already. -/
def Foreign (f : Fault) : Prop :=
  ∀ g ∈ f.chain, g.ownReport? = none ∧ ∀ failure operation url inner, g ≠ .clone failure operation url inner

theorem Foreign.report?_eq_none {f : Fault} (h : Foreign f) : f.report? = none :=
  List.findSome?_eq_none_iff.2 fun g hg => (h g hg).1

theorem Foreign.isClone_eq_false {f : Fault} (h : Foreign f) (failure : CloneFailure) :
    f.isClone failure = false := by
  refine List.any_eq_false.2 fun g hg => ?_
  split
  · next kind operation url inner => exact absurd rfl ((h _ hg).2 kind operation url inner)
  · exact Bool.false_ne_true

/-- The ways to fail to clone that trying again cannot help. -/
def CloneFailure.stays : CloneFailure → Bool
  | .auth | .notFound | .unsupportedProtocol => true
  | .rateLimit | .timeout => false

theorem isPermanent_classified (r : Report) (cause : Option Fault) :
    isPermanent (.classified r cause) = !r.retry.allows := rfl

/-- The strategy for an unclassified fault allows another attempt unless fetching failed in one of the
ways that stay. -/
theorem allows_categorize (f : Fault) :
    (categorize f).2.allows =
      !(f.isClone .auth || f.isClone .notFound || f.isClone .unsupportedProtocol) := by
  rw [categorize]
  split_ifs <;> simp_all [Retry.allows]

/-- **What classifying says of trying again.** A classified fault keeps its strategy. Of the others those
stay that are failures of authentication, of what is not found, or of an unknown protocol. -/
theorem isPermanent_classify (f : Fault) (operation url : Bytes) :
    isPermanent (classify f operation url) =
      match f.report? with
      | some r => !r.retry.allows
      | none => f.isClone .auth || f.isClone .notFound || f.isClone .unsupportedProtocol := by
  rw [classify]
  cases hreport : f.report? with
  -- A classified fault is passed on as it is.
  | some r => simp [isPermanent, hreport]
  | none =>
    simp only [Option.isSome_none, Bool.false_eq_true, if_false, isPermanent_classified,
      allows_categorize, Bool.not_not]

section CloneFault

variable {inner : Fault}

theorem Foreign.report?_cloneFault (h : Foreign inner) (url : Bytes) :
    (cloneFault url inner).report? = none := by
  have hinner := h.report?_eq_none
  rw [cloneFault]
  split <;> simpa [Fault.report?, Fault.chain, Fault.ownReport?] using hinner

theorem Foreign.isClone_cloneFault (h : Foreign inner) (url : Bytes) (failure : CloneFailure) :
    (cloneFault url inner).isClone failure = (CloneFailure.ofMessage? inner.text == some failure) := by
  have hinner := h.isClone_eq_false failure
  rw [Fault.isClone] at hinner
  rw [cloneFault]
  split
  · next kind hkind => rw [hkind]; simp [Fault.isClone, Fault.chain, hinner]
  · next hkind => rw [hkind]; simp [Fault.isClone, Fault.chain, hinner]

/-- **Which failures to clone stay.** Those that the words of the message tell apart as such. -/
theorem Foreign.isPermanent_classify_cloneFault (h : Foreign inner) (operation url : Bytes) :
    isPermanent (classify (cloneFault url inner) operation url) =
      (CloneFailure.ofMessage? inner.text).any CloneFailure.stays := by
  rw [isPermanent_classify, h.report?_cloneFault]
  simp only [h.isClone_cloneFault]
  rcases CloneFailure.ofMessage? inner.text with _ | _ | _ | _ | _ | _ <;> rfl

end CloneFault

/-! ## Attempts to clone -/

/-- The categories of the faults that stay: of authentication, of what is not found, and of protocols
that are not known. -/
def stayingCategories : List Category := [.auth, .notFound, .config]

theorem category_categorize (f : Fault) :
    (categorize f).1 ∈ stayingCategories ↔ (categorize f).2.allows = false := by
  rw [categorize]
  split_ifs <;> simp [stayingCategories, Retry.allows]

theorem category_classified (r : Report) (cause : Option Fault) :
    (Fault.classified r cause).category = r.category := rfl

theorem Credentials.exists_of_loginWith {loadKey : KeyLoader} {c : Option Credentials} {f : Fault}
    (h : loginWith loadKey c = .error f) :
    ∃ message context cause, f = .classified (.standard .auth message context) cause := by
  simp only [loginWith] at h
  split at h
  · cases h
  · repeat' split at h
    all_goals first
      | cases h; done
      | exact ⟨_, _, _, (Except.error.inj h).symm⟩

/-- A fault that was not classified before is classified to stay exactly if its category says so. -/
theorem isPermanent_classify_iff {f : Fault} (hreport : f.report? = none) (operation url : Bytes) :
    isPermanent (classify f operation url) = true ↔
      (classify f operation url).category ∈ stayingCategories := by
  rw [classify, hreport]
  simp only [Option.isSome_none, Bool.false_eq_true, if_false, isPermanent_classified,
    category_classified, category_categorize, Bool.not_eq_true']

/-- What is classified is not classified once more. -/
theorem classify_classify (f : Fault) (first second url url' : Bytes) :
    classify (classify f first url) second url' = classify f first url := by
  have hreport : (classify f first url).report?.isSome = true := by
    rw [classify]
    split
    · assumption
    · rfl
  rw [classify, if_pos hreport]

/-- The faults of a version control program are from outside. -/
structure Program.Outside (program : Program) : Prop where
  clone : ∀ order f, program.clone order = .error f → Foreign f
  head : ∀ order f, program.head order = .error f → Foreign f

/-- **Which attempts to clone are in vain.** An attempt fails for good exactly if its fault is of
authentication, of what is not found or of an unknown protocol; all others can be made again. -/
theorem Client.isPermanent_of_cloneOnce {c : Client} {program : Program} (houtside : program.Outside)
    {tree : FileTree} {path url : Bytes} {f : Fault}
    (h : { c with clone := .ofProgram program }.cloneOnce tree path url = .error f) :
    isPermanent f = true ↔ f.category ∈ stayingCategories := by
  rw [cloneOnce] at h
  cases hremove : tree.removeAll path with
  | error cause =>
    rw [hremove] at h
    obtain rfl := Except.error.inj h
    exact iff_of_false Bool.false_ne_true (by simp [stayingCategories, category_classified,
      Fault.raiseFrom, Report.standard])
  | ok removed =>
    rw [hremove] at h
    cases hlogin : Credentials.login tree c.credentials with
    | error fault =>
      rw [hlogin] at h
      obtain rfl := Except.error.inj h
      obtain ⟨message, context, cause, rfl⟩ := Credentials.exists_of_loginWith hlogin
      exact iff_of_true rfl (by simp [stayingCategories, category_classified, Report.standard])
    | ok login =>
      rw [hlogin] at h
      have hclone : (Cloner.ofProgram program
          { url, path, depth := wantedDepth c.depth, login }).mapError (classify · "clone" url) =
            .error f := h
      rw [Cloner.ofProgram] at hclone
      cases hprogram : program.clone { url, path, depth := wantedDepth c.depth, login } with
      | error inner =>
        rw [hprogram] at hclone
        obtain rfl := Except.error.inj hclone
        exact isPermanent_classify_iff ((houtside.clone _ _ hprogram).report?_cloneFault url) "clone" url
      | ok cloned =>
        rw [hprogram] at hclone
        cases hhead : program.head { url, path, depth := wantedDepth c.depth, login } with
        | error inner =>
          rw [hhead] at hclone
          obtain rfl := Except.error.inj hclone
          -- The fault of reading the commit is classified already when the attempt classifies it.
          simp only [classify_classify]
          exact isPermanent_classify_iff (houtside.head _ _ hhead).report?_eq_none "head" url
        | ok snapshot =>
          rw [hhead] at hclone
          cases hclone

/-! ## Pauses -/

theorem roundDiv_one (n : Nat) : Double.roundDiv n 1 = n := by
  simp [Double.roundDiv, Nat.mod_one]

/-- What has 53 bits is not rounded. -/
theorem roundNat_of_lt {n : Nat} (h : n < 2 ^ 53) : Double.roundNat n = n := by
  have hunit : Nat.log2 n - 52 = 0 := by
    rcases Nat.eq_zero_or_pos n with rfl | hpos
    · rfl
    · have := (Nat.log2_lt (Nat.ne_of_gt hpos)).2 h
      omega
  rw [Double.roundNat, hunit]
  simp [roundDiv_one]

/-- A delay is stretched exactly while it has 53 bits. -/
theorem toInt_stretch {factor : Nat} {delay : Int64} (hpos : 0 < factor)
    (h : factor * delay.toInt.natAbs < 2 ^ 53) :
    (stretch factor delay).toInt = factor * delay.toInt := by
  have hdelay : Double.roundNat delay.toInt.natAbs = delay.toInt.natAbs :=
    roundNat_of_lt (Nat.lt_of_le_of_lt (Nat.le_mul_of_pos_left _ hpos) h)
  have hsigned : (if delay < 0 then -((factor * delay.toInt.natAbs : Nat) : Int)
      else ((factor * delay.toInt.natAbs : Nat) : Int)) = factor * delay.toInt := by
    rw [Int.natCast_mul]
    split
    · next hneg =>
      rw [Int64.lt_iff_toInt_lt, Int64.toInt_zero] at hneg
      rw [Int.ofNat_natAbs_of_nonpos (Int.le_of_lt hneg), Int.mul_neg, Int.neg_neg]
    · next hnonneg =>
      rw [Int64.lt_iff_toInt_lt, Int64.toInt_zero] at hnonneg
      rw [Int.natAbs_of_nonneg (Int.not_lt.1 hnonneg)]
  have hbounds : (factor * delay.toInt : Int).natAbs < 2 ^ 53 := by rwa [Int.natAbs_mul]
  rw [stretch, hdelay, roundNat_of_lt h]
  simp only [hsigned]
  have hleast : Int64.minValue.toInt = -2 ^ 63 := rfl
  have hmost : Int64.maxValue.toInt = 2 ^ 63 - 1 := rfl
  rw [if_pos (by omega)]
  exact Int64.toInt_ofInt_of_le (by omega) (by omega)

/-- The pause after a failure is the delay of the policy, three times as long after a rate limit, while
that has 53 bits. -/
theorem toInt_pauseAfter (p : Backoff) (attempt : Nat) (f : Fault)
    (h : 3 * (p.delay (Int64.ofNat attempt)).toInt.natAbs < 2 ^ 53) :
    (pauseAfter p attempt f).toInt =
      (if f.isClone .rateLimit then 3 else 1) * (p.delay (Int64.ofNat attempt)).toInt := by
  simp only [pauseAfter]
  split
  · exact toInt_stretch (by decide) h
  · split
    · exact toInt_stretch (by decide) (by omega)
    · exact (Int.one_mul _).symm

/-- A longer delay is rounded. -/
example : stretch 1 9007199254740993 = 9007199254740992 := by decide +kernel

/-! ## Trying again -/

/-- What trying again comes to: the course of the trial, what its own faults say, and which failures to
clone end it. -/
structure Tries (p : Backoff) (operation url : Bytes) (attempt : Nat → Except Fault α)
    (cancelled : Nat → Bool) : Prop where
  course : ∃ n, Course p operation url attempt cancelled n
    (withRetries p operation url attempt cancelled)
  isCancelled_cancellation : (cancellation operation url .cancelled).isCancelled = true
  exhaustion_eq : ∀ f, ∃ report, exhaustion p operation url (some f) = .classified report (some f) ∧
    Context.get? report.context "attempts" = some (.int (p.retries + 1).toInt)
  /-- The attempts are counted exactly, as long as a word can count them. -/
  toInt_attempts : p.retries ≠ Int64.maxValue → (p.retries + 1).toInt = p.retries.toInt + 1
  isPermanent_clone : ∀ inner, Foreign inner →
    isPermanent (classify (cloneFault url inner) operation url) =
      (CloneFailure.ofMessage? inner.text).any CloneFailure.stays
  /-- Whatever an attempt to clone fails at, its fault stays exactly if its category says so. -/
  isPermanent_cloneOnce : ∀ (c : Client) (program : Program) (tree : FileTree) (path : Bytes)
    (f : Fault), program.Outside →
    { c with clone := .ofProgram program }.cloneOnce tree path url = .error f →
    (isPermanent f = true ↔ f.category ∈ stayingCategories)
  /-- Pauses are as long as the policy says, and three times as long after a rate limit. -/
  toInt_pauseAfter : ∀ k f, 3 * (p.delay (Int64.ofNat k)).toInt.natAbs < 2 ^ 53 →
    (pauseAfter p k f).toInt =
      (if f.isClone .rateLimit then 3 else 1) * (p.delay (Int64.ofNat k)).toInt

/-- **Trying again.** The operation is called at most once more than it may be tried again, in turns with
the pauses, and never after a success, a failure that stays or a pause that was cut off; that last call
decides on the result. -/
theorem withRetries_tries {p : Backoff} (hretries : 0 ≤ p.retries) (operation url : Bytes)
    (attempt : Nat → Except Fault α) (cancelled : Nat → Bool) :
    Tries p operation url attempt cancelled where
  course := withRetries_course hretries
  isCancelled_cancellation := isCancelled_cancellation operation url
  exhaustion_eq := exists_exhaustion p operation url
  toInt_attempts := toInt_attempts hretries
  isPermanent_clone _ hinner := hinner.isPermanent_classify_cloneFault operation url
  isPermanent_cloneOnce _ _ _ _ _ houtside hfault := Client.isPermanent_of_cloneOnce houtside hfault
  toInt_pauseAfter := toInt_pauseAfter p

/-- A clone that meets a broken connection once. -/
def brokenOnce (n : Nat) : Except Fault Nat :=
  if n = 1 then .error (classify (cloneFault "u" (.plain "connection reset by peer")) "clone" "u")
  else .ok n

/-- A policy of two retries, with a short pause of one length. -/
def twice : Backoff := { mode := .fixed, initial := 1000, max := 1000, retries := 2 }

theorem foreign_plain (text : Bytes) : Foreign (.plain text) := by
  intro g hg
  obtain rfl := List.mem_singleton.1 hg
  exact ⟨rfl, fun _ _ _ _ h => nomatch h⟩

/-- A broken connection is tried again, and the second call succeeds. -/
theorem withRetries_tries_broken :
    0 ≤ twice.retries ∧ Tries twice "clone" "u" brokenOnce (fun _ => false) ∧
      Foreign (.plain "connection reset by peer") ∧
      (withRetries twice "clone" "u" brokenOnce fun _ => false).events =
        [.call, .pause 1000, .call] :=
  ⟨by decide, withRetries_tries (by decide) _ _ _ _, foreign_plain _, by decide⟩

end Bindery.Repository
