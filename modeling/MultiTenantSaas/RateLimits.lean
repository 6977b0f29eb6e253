import MultiTenantSaas.Ghost
import MultiTenantSaas.Runs

/-!
The rate limiter as a sliding-window log: any number of its calls run interleaved, and
each is judged by the calls in the window that ends with it.
-/

set_option autoImplicit false

namespace MultiTenantSaas

open Process

namespace Window

variable {α : Type} (score : α → Int) (width : Int)

def after (t : Int) (log : List α) : List α := log.filter fun h => t - width < score h

variable {score width}

theorem mem_of_after {t : Int} {log : List α} {x : α} (h : x ∈ after score width t log) :
    x ∈ log := List.mem_of_mem_filter h

theorem after_after {s t : Int} (hst : s ≤ t) (log : List α) :
    after score width t (after score width s log) = after score width t log := by
  simp only [after, List.filter_filter]
  refine List.filter_congr fun h _ => ?_
  have hle : t - width < score h → s - width < score h := fun hlt => by omega
  by_cases hlt : t - width < score h
  · simp [hlt, hle hlt]
  · simp [hlt]

theorem after_eq_nil {s t : Int} {log : List α} (hlog : ∀ h ∈ log, score h ≤ s)
    (hst : s + width ≤ t) : after score width t log = [] :=
  List.filter_eq_nil_iff.mpr fun h hh => by
    have hle := hlog h hh
    simp only [decide_eq_true_eq]
    omega

/-- When each admitted entry has at most `limit` entries in its window, no interval of
this width has more that are admitted. -/
theorem admitted_le {limit : Nat} {admitted : α → Bool} {log : List α}
    (h : ∀ newer x older, log = newer ++ x :: older → admitted x = true →
      (after score width (score x) (x :: older)).length ≤ limit) (t : Int) :
    (log.filter fun x => admitted x && decide (t - width < score x) &&
      decide (score x ≤ t)).length ≤ limit := by
  induction log with
  | nil => simp
  | cons x older ih =>
    by_cases hx : (admitted x && decide (t - width < score x) && decide (score x ≤ t)) = true
    · have hin := hx
      simp only [Bool.and_eq_true, decide_eq_true_eq] at hin
      obtain ⟨⟨hadm, -⟩, hle⟩ := hin
      -- the others in the interval are in the window of `x`
      refine le_trans (List.Sublist.length_le ?_) (h [] x older rfl hadm)
      refine List.monotone_filter_right _ fun y hy => ?_
      simp only [Bool.and_eq_true, decide_eq_true_eq] at hy ⊢
      omega
    · rw [List.filter_cons, if_neg hx]
      exact ih fun newer y older' hlog => h (x :: newer) y older' (by rw [hlog]; rfl)

end Window

def rateLimitIdentifier (clientIp : Option Str) (path : Str) : Str :=
  "rate_limit:".toList ++ clientIp.getD "unknown".toList ++ ":".toList ++ path

/-- A call with its place in the sorted set. -/
structure Hit where
  call : Nat
  member : Int × Int
  score : Int

/-- The transactions on the key, newest first. -/
def recordHit (key : Str) (i : Nat) : Op → List Hit → List Hit
  | .slidingWindow k member _ score _, log => if k = key then ⟨i, member, score⟩ :: log else log
  | _, log => log

section

variable [Library]

def limiterCalls (limit window : Nat) :
    System sig Exn RateLimitHeaders (Option Str × Str) World :=
  { machine with code := fun r => rateLimiter limit window r.1 r.2 }

abbrev LimiterConfig := Config sig Exn RateLimitHeaders (Option Str × Str) (World × List Hit)

/-- The transactions on the key come in the order of their timestamps, which count from
the epoch, with new members, and the key is still there when less than the window has
passed since the last one. -/
def InOrder (key : Str) (c : LimiterConfig) : Label sig (Option Str × Str) → Prop
  | .act _ (.slidingWindow k member _ score seconds) => k = key →
    0 ≤ score ∧ (∀ h ∈ c.state.2, h.score ≤ score ∧ h.member ≠ member) ∧
    ∀ h, c.state.2.head? = some h → score < h.score + seconds * second →
      ∀ members expires, c.state.1.redis.sortedSets key = some (members, expires) →
        c.state.1.now < expires
  | _ => True

omit [Library]

def Hit.entry (h : Hit) : (Int × Int) × Int := (h.member, h.score)

def hitsAfter (window : Nat) (t : Int) (log : List Hit) : List Hit :=
  Window.after Hit.score (window * second) t log

/-- What is stored under the key: the window of the last call, oldest entry first. -/
def StoredHits (key : Str) (window : Nat) (r : Redis) : List Hit → Prop
  | [] => r.sortedSets key = none
  | h :: older => ∃ expires, r.sortedSets key =
    some (((hitsAfter window h.score (h :: older)).map Hit.entry).reverse, expires)

structure Timely (log : List Hit) : Prop where
  epoch : ∀ h ∈ log, 0 ≤ h.score
  descending : log.Pairwise fun later earlier => earlier.score ≤ later.score

variable {key : Str} {window : Nat} {r : Redis} {log : List Hit} {x : Hit} {now : Instant}

theorem pruned_entries {t : Int} {member : Int × Int}
    (h : ∀ x ∈ log, 0 ≤ x.score ∧ x.member ≠ member) :
    (((log.map Hit.entry).reverse.filter fun m =>
        !(0 ≤ m.2 && m.2 ≤ t - window * second)).filter fun m => m.1 ≠ member) =
      ((hitsAfter window t log).map Hit.entry).reverse := by
  simp only [List.filter_reverse, List.filter_map, List.filter_filter, hitsAfter, Window.after]
  refine congrArg (fun l => (List.map Hit.entry l).reverse) (List.filter_congr fun x hx => ?_)
  obtain ⟨hepoch, hne⟩ := h x hx
  by_cases hlt : t - window * second < x.score
  · have hle : ¬ x.score ≤ t - window * second := by omega
    simp [Hit.entry, hne, hlt, hle]
  · have hle : x.score ≤ t - window * second := by omega
    simp [Hit.entry, hlt, hepoch, hle]

/-- The prune leaves the calls of the new call's window, also when the key has lapsed. -/
theorem pruned_eq (hs : StoredHits key window r log) (ht : Timely log)
    (hx : ∀ h ∈ log, h.score ≤ x.score ∧ h.member ≠ x.member)
    (hkey : ∀ h, log.head? = some h → x.score < h.score + window * second →
      ∀ members expires, r.sortedSets key = some (members, expires) → now < expires) :
    ((r.sortedSet now key).filter fun m =>
        !(0 ≤ m.2 && m.2 ≤ x.score - window * second)).filter (fun m => m.1 ≠ x.member) =
      ((hitsAfter window x.score log).map Hit.entry).reverse := by
  cases log with
  | nil =>
    have hset : r.sortedSets key = none := hs
    have hnone : r.sortedSet now key = [] := by simp only [Redis.sortedSet, hset]
    simp [hnone, hitsAfter, Window.after]
  | cons h older =>
    obtain ⟨expires, hset⟩ := hs
    by_cases hlive : now < expires
    · have hstored : r.sortedSet now key =
          ((hitsAfter window h.score (h :: older)).map Hit.entry).reverse := by
        simp only [Redis.sortedSet, hset, hlive, if_true]
      have hle := (hx h List.mem_cons_self).1
      have hkept : ∀ y ∈ hitsAfter window h.score (h :: older), 0 ≤ y.score ∧ y.member ≠ x.member :=
        fun y hy => ⟨ht.epoch y (Window.mem_of_after hy), (hx y (Window.mem_of_after hy)).2⟩
      rw [hstored, pruned_entries hkept, hitsAfter, hitsAfter, Window.after_after hle, hitsAfter]
    · have hlapsed : r.sortedSet now key = [] := by
        simp only [Redis.sortedSet, hset, hlive, if_false]
      have hgone : h.score + window * second ≤ x.score := by
        by_contra hnot
        exact hlive (hkey h rfl (by omega) _ _ hset)
      have hnil : hitsAfter window x.score (h :: older) = [] :=
        Window.after_eq_nil (fun y hy => ?_) hgone
      · simp [hlapsed, hnil]
      · rcases List.mem_cons.mp hy with rfl | hy
        · exact le_refl _
        · exact List.rel_of_pairwise_cons ht.descending hy

/-- The transaction of a call leaves the window that ends with it. -/
theorem slide_eq (hwindow : 1 ≤ window) (hs : StoredHits key window r log) (ht : Timely log)
    (hx : ∀ h ∈ log, h.score ≤ x.score ∧ h.member ≠ x.member)
    (hkey : ∀ h, log.head? = some h → x.score < h.score + window * second →
      ∀ members expires, r.sortedSets key = some (members, expires) → now < expires) :
    r.slide now key x.member (x.score - window * second) x.score =
      ((hitsAfter window x.score (x :: log)).map Hit.entry).reverse := by
  have hself : x.score - window * second < x.score := by
    simp only [second]
    omega
  rw [Redis.slide, pruned_eq hs ht hx hkey]
  simp [hitsAfter, Window.after, hself, Hit.entry]

/-- How a call is answered that has `count` calls in its window. -/
structure Verdict (limit count : Nat) (a : Except Exn RateLimitHeaders) : Prop where
  rejected : (∃ e, a = .error e ∧ e.status = 429) ↔ limit < count
  admitted : (∃ headers, a = .ok headers) ↔ count ≤ limit
  remaining : ∀ headers, a = .ok headers → headers.limit = limit ∧
    headers.remaining = limit - count

def Counting (limit window : Nat) (clientIp : Option Str) (path : Str) :
    Coro RateLimitHeaders → Prop
  | .call (.slidingWindow k _ max score seconds) next => k = rateLimitIdentifier clientIp path ∧
    max = score - window * second ∧ seconds = window ∧
    ∀ count : Nat, ∃ a, next (.ok count) = .done a ∧ Verdict limit count a
  | _ => False

def Arriving (limit window : Nat) (clientIp : Option Str) (path : Str) :
    Coro RateLimitHeaders → Prop
  | .call .clock next => ∀ ts, ∃ next', next (.ok ts) = .call .perfCounter next' ∧
    ∀ perf, Counting limit window clientIp path (next' (.ok perf))
  | .call .perfCounter next => ∀ perf, Counting limit window clientIp path (next (.ok perf))
  | p => Counting limit window clientIp path p

theorem Counting.arriving {limit window : Nat} {clientIp : Option Str} {path : Str}
    {p : Coro RateLimitHeaders} (h : Counting limit window clientIp path p) :
    Arriving limit window clientIp path p := by
  cases p with
  | done a => exact h
  | call o next =>
    cases o <;> try exact h.elim
    exact h

theorem rateLimiter_arriving (limit window : Nat) (clientIp : Option Str) (path : Str) :
    Arriving limit window clientIp path (rateLimiter limit window clientIp path) := by
  refine fun ts => ⟨_, rfl, fun perf => ⟨rfl, rfl, rfl, fun (count : Nat) => ?_⟩⟩
  by_cases hover : limit < count
  · have hnot : ¬ count ≤ limit := by omega
    exact ⟨_, if_pos hover, ⟨by simp [hover, Exn.status], by simp [hnot], nofun⟩⟩
  · have hle : count ≤ limit := by omega
    refine ⟨_, if_neg hover, ⟨by simp [hover], by simp [hle], ?_⟩⟩
    rintro headers ⟨⟩
    exact ⟨rfl, rfl⟩

def Judged (limit window : Nat) (log : List Hit) (i : Nat) (a : Except Exn RateLimitHeaders) :
    Prop :=
  ∃ newer x older, log = newer ++ x :: older ∧ x.call = i ∧
    Verdict limit (hitsAfter window x.score (x :: older)).length a

theorem Judged.later {limit : Nat} {i : Nat} {a : Except Exn RateLimitHeaders}
    (h : Judged limit window log i a) (x : Hit) : Judged limit window (x :: log) i a := by
  obtain ⟨newer, y, older, rfl, hrest⟩ := h
  exact ⟨x :: newer, y, older, rfl, hrest⟩

/-- The invariant of the limiter. -/
structure Limiting (key : Str) (limit window : Nat) (c : LimiterConfig) : Prop where
  redis : c.state.1.faults.redis = false
  stored : StoredHits key window c.state.1.redis c.state.2
  timely : Timely c.state.2
  calls : (c.state.2.map Hit.call).Nodup
  answered : ∀ newer x older, c.state.2 = newer ++ x :: older → ∃ t a,
    c.thread x.call = some ⟨t, .done a⟩ ∧
    Verdict limit (hitsAfter window x.score (x :: older)).length a
  threads : ∀ i t p, c.thread i = some ⟨t, p⟩ → Arriving limit window t.1 t.2 p ∨
    ∃ a, p = .done a ∧ (rateLimitIdentifier t.1 t.2 = key → Judged limit window c.state.2 i a)

variable {limit : Nat} {c c' : LimiterConfig}

theorem Limiting.other (h : Limiting key limit window c) {i : Nat} (hi : ∀ t a,
    c.thread i ≠ some ⟨t, .done a⟩) {x : Hit} (hx : x ∈ c.state.2) : x.call ≠ i := by
  rintro rfl
  obtain ⟨newer, older, hlog⟩ := List.append_of_mem hx
  obtain ⟨t, a, ht, -⟩ := h.answered newer x older hlog
  exact hi t a ht

theorem Limiting.move (h : Limiting key limit window c) {i : Nat} {t : Option Str × Str}
    {o : Op} {next : Except Exn o.Resp → Coro RateLimitHeaders} {p : Coro RateLimitHeaders}
    {w : World} (ht : c.thread i = some ⟨t, .call o next⟩) (hfaults : w.faults = c.state.1.faults)
    (hset : w.redis.sortedSets key = c.state.1.redis.sortedSets key)
    (hp : Arriving limit window t.1 t.2 p ∨ ∃ a, p = .done a ∧ rateLimitIdentifier t.1 t.2 ≠ key) :
    Limiting key limit window (c.setThread i ⟨t, p⟩ (w, c.state.2)) := by
  have hother : ∀ x ∈ c.state.2, x.call ≠ i := fun x hx => h.other (by simp [ht]) hx
  refine ⟨hfaults ▸ h.redis, ?_, h.timely, h.calls, fun newer x older hlog => ?_,
    fun j t' q hj => ?_⟩
  · have hs := h.stored
    change StoredHits key window w.redis c.state.2
    cases hlog : c.state.2 with
    | nil =>
      rw [hlog] at hs
      exact hset.trans hs
    | cons x older =>
      rw [hlog] at hs
      obtain ⟨expires, hs⟩ := hs
      exact ⟨expires, hset.trans hs⟩
  · obtain ⟨t', a, ht', hverdict⟩ := h.answered newer x older hlog
    have hne : x.call ≠ i := hother x ((congrArg (x ∈ ·) hlog).mpr (by simp))
    exact ⟨t', a, (Config.thread_setThread_of_ne _ hne _ _).trans ht', hverdict⟩
  · by_cases hij : j = i
    · subst hij
      simp only [Config.setThread, Function.update_self, Option.some.injEq, Thread.mk.injEq] at hj
      obtain ⟨rfl, rfl⟩ := hj
      refine hp.imp_right ?_
      rintro ⟨a, ha, hne⟩
      exact ⟨a, ha, fun he => absurd he hne⟩
    · exact h.threads j t' q ((Config.thread_setThread_of_ne _ hij _ _).symm.trans hj)

theorem Limiting.hit (hwindow : 1 ≤ window) (h : Limiting key limit window c) {x : Hit}
    {t : Option Str × Str} {o : Op} {next : Except Exn o.Resp → Coro RateLimitHeaders}
    {p : Coro RateLimitHeaders} (ht : c.thread x.call = some ⟨t, .call o next⟩)
    (hepoch : 0 ≤ x.score) (hx : ∀ y ∈ c.state.2, y.score ≤ x.score ∧ y.member ≠ x.member)
    (hkey : ∀ y, c.state.2.head? = some y → x.score < y.score + window * second →
      ∀ members expires, c.state.1.redis.sortedSets key = some (members, expires) →
        c.state.1.now < expires)
    (hp : ∀ count, count = (c.state.1.redis.slide c.state.1.now key x.member
      (x.score - window * second) x.score).length → ∃ a, p = .done a ∧ Verdict limit count a) :
    Limiting key limit window (c.setThread x.call ⟨t, p⟩
      (c.state.1.slide key x.member (x.score - window * second) x.score window,
        x :: c.state.2)) := by
  have hslide := slide_eq hwindow h.stored h.timely hx hkey
  obtain ⟨a, rfl, hverdict⟩ := hp _ rfl
  rw [hslide, List.length_reverse, List.length_map] at hverdict
  have hjudged : Judged limit window (x :: c.state.2) x.call a :=
    ⟨[], x, c.state.2, rfl, rfl, hverdict⟩
  have hother : ∀ y ∈ c.state.2, y.call ≠ x.call := fun y hy => h.other (by simp [ht]) hy
  refine ⟨h.redis, ?_, ⟨?_, ?_⟩, ?_, fun newer y older hlog => ?_, fun j t' q hj => ?_⟩
  · refine ⟨c.state.1.now + window * second, ?_⟩
    rw [← hslide]
    exact Function.update_self ..
  · exact List.forall_mem_cons.mpr ⟨hepoch, h.timely.epoch⟩
  · exact List.pairwise_cons.mpr ⟨fun y hy => (hx y hy).1, h.timely.descending⟩
  · refine List.nodup_cons.mpr ⟨fun hmem => ?_, h.calls⟩
    obtain ⟨y, hy, he⟩ := List.mem_map.mp hmem
    exact hother y hy he
  · rcases List.cons_eq_append_iff.mp hlog with ⟨-, hhead⟩ | ⟨newer', -, hrest⟩
    · cases hhead
      exact ⟨t, a, by simp [Config.setThread], hverdict⟩
    · obtain ⟨t', b, ht', hverdict'⟩ := h.answered newer' y older hrest
      have hne : y.call ≠ x.call := hother y (hrest ▸ by simp)
      exact ⟨t', b, (Config.thread_setThread_of_ne _ hne _ _).trans ht', hverdict'⟩
  · by_cases hij : j = x.call
    · subst hij
      simp only [Config.setThread, Function.update_self, Option.some.injEq, Thread.mk.injEq] at hj
      obtain ⟨rfl, rfl⟩ := hj
      exact Or.inr ⟨a, rfl, fun _ => hjudged⟩
    · refine (h.threads j t' q
        ((Config.thread_setThread_of_ne _ hij _ _).symm.trans hj)).imp_right ?_
      rintro ⟨b, hb, hjudged'⟩
      exact ⟨b, hb, fun he => (hjudged' he).later x⟩

end

section

variable [Library] {key : Str} {limit window : Nat} {c c' : LimiterConfig}

omit [Library] in
theorem Limiting.start (h : Limiting key limit window c) {i : Nat} (r : Option Str × Str)
    (hnone : c.thread i = none) :
    Limiting key limit window (c.setThread i ⟨r, rateLimiter limit window r.1 r.2⟩ c.state) := by
  refine ⟨h.redis, h.stored, h.timely, h.calls, fun newer x older hlog => ?_, fun j t q hj => ?_⟩
  · obtain ⟨t, a, ht, hverdict⟩ := h.answered newer x older hlog
    have hne : x.call ≠ i := by
      rintro rfl
      rw [hnone] at ht
      cases ht
    exact ⟨t, a, (Config.thread_setThread_of_ne _ hne _ _).trans ht, hverdict⟩
  · by_cases hij : j = i
    · subst hij
      simp only [Config.setThread, Function.update_self, Option.some.injEq, Thread.mk.injEq] at hj
      obtain ⟨rfl, rfl⟩ := hj
      exact Or.inl (rateLimiter_arriving limit window r.1 r.2)
    · exact h.threads j t q ((Config.thread_setThread_of_ne _ hij _ _).symm.trans hj)

theorem Limiting.step (hwindow : 1 ≤ window) (h : Limiting key limit window c)
    {l : Label sig (Option Str × Str)} (hok : InOrder key c l)
    (hs : Step ((limiterCalls limit window).ghost (recordHit key)) c l c') :
    Limiting key limit window c' := by
  cases hs with
  | start hnone => exact h.start _ hnone
  | env he =>
    obtain ⟨henv, hlog⟩ := he
    have hsame : ∀ w, Environment c.state.1 w → w.faults = c.state.1.faults ∧
        w.redis = c.state.1.redis := fun w hw => by cases hw <;> exact ⟨rfl, rfl⟩
    obtain ⟨hfaults, hredis⟩ := hsame _ henv
    exact ⟨hfaults ▸ h.redis, by rw [hredis, hlog]; exact h.stored, by rw [hlog]; exact h.timely,
      by rw [hlog]; exact h.calls, by rw [hlog]; exact h.answered, by rw [hlog]; exact h.threads⟩
  | @act i t o next a s' ht he =>
    obtain ⟨w', log'⟩ := s'
    obtain ⟨he, hlog⟩ := he
    change exec i o c.state.1 a w' at he
    change log' = recordHit key i o c.state.2 at hlog
    have hp := (h.threads i t _ ht).resolve_right (by rintro ⟨a, ha, -⟩; cases ha)
    cases o <;> try exact hp.elim
    case clock =>
      obtain ⟨rfl, rfl⟩ := he
      obtain rfl : log' = c.state.2 := hlog
      obtain ⟨next', hnext, hcount⟩ := hp c.state.1.now
      refine h.move ht rfl rfl (Or.inl ?_)
      exact (congrArg (Arriving limit window t.1 t.2) hnext).mpr hcount
    case perfCounter =>
      obtain ⟨⟨perf, rfl⟩, rfl⟩ := he
      obtain rfl : log' = c.state.2 := hlog
      exact h.move ht rfl rfl (Or.inl (hp perf).arriving)
    case slidingWindow k member max score seconds =>
      obtain ⟨hk, rfl, rfl, hcount⟩ := hp
      rcases he with ⟨rfl, rfl⟩ | ⟨-, hfaulty, -⟩
      · by_cases hkey : k = key
        · subst hkey
          obtain ⟨hepoch, hx, hlive⟩ := hok rfl
          obtain rfl : log' = ⟨i, member, score⟩ :: c.state.2 := hlog.trans (if_pos rfl)
          refine h.hit (x := ⟨i, member, score⟩) hwindow ht hepoch hx hlive fun count hc => ?_
          subst hc
          exact hcount _
        · obtain rfl : log' = c.state.2 := hlog.trans (if_neg hkey)
          obtain ⟨b, hb, -⟩ := hcount
            (c.state.1.redis.slide c.state.1.now k member (score - seconds * second) score).length
          exact h.move ht rfl (Function.update_of_ne (Ne.symm hkey) ..)
            (Or.inr ⟨b, hb, fun he => hkey (hk.trans he)⟩)
      · rw [h.redis] at hfaulty
        cases hfaulty

def admittedCall (c : LimiterConfig) (i : Nat) : Bool :=
  match c.thread i with
  | some ⟨_, .done (.ok _)⟩ => true
  | _ => false

/-- The limiter is a sliding-window log. Each answered call is rejected if and only if more
than `limit` calls, rejected ones included, came in the window that ends with it; the answer
to an admitted one tells how many are left; and no interval as long as the window has more
than `limit` admitted calls. -/
theorem limiter_exact (hwindow : 1 ≤ window)
    {c₀ : Config sig Exn RateLimitHeaders (Option Str × Str) World}
    (hidle : ∀ i, c₀.thread i = none) (hempty : c₀.state.redis.sortedSets key = none)
    (hredis : c₀.state.faults.redis = false)
    (h : Reach ((limiterCalls limit window).ghost (recordHit key)) (InOrder key) (c₀.ghost []) c) :
    (c.state.2.map Hit.call).Nodup ∧
    (∀ i ip path a, c.thread i = some ⟨(ip, path), .done a⟩ → rateLimitIdentifier ip path = key →
      Judged limit window c.state.2 i a) ∧
    ∀ t, (c.state.2.filter fun x => admittedCall c x.call &&
      decide (t - window * second < x.score) && decide (x.score ≤ t)).length ≤ limit := by
  have hinv : Limiting key limit window c := by
    have h₀ : Limiting key limit window (c₀.ghost []) := by
      refine ⟨hredis, hempty, ⟨fun x hx => absurd hx List.not_mem_nil, .nil⟩, .nil,
        fun newer x older hlog => absurd hlog (by simp [Config.ghost]), fun i t p ht => ?_⟩
      exact absurd ht (by simp [Config.ghost, hidle])
    exact h.invariant _ h₀ fun _ _ _ _ hI hok hs => hI.step hwindow hok hs
  refine ⟨hinv.calls, fun i ip path a ht hkey => ?_,
    Window.admitted_le fun newer x older hlog hx => ?_⟩
  · rcases hinv.threads i _ _ ht with hp | ⟨b, hb, hj⟩
    · exact hp.elim
    · cases hb
      exact hj hkey
  · obtain ⟨t, a, ht, hverdict⟩ := hinv.answered newer x older hlog
    simp only [admittedCall, ht] at hx
    cases a with
    | ok headers => exact hverdict.admitted.mp ⟨headers, rfl⟩
    | error e => cases hx

end

def inOrder (key : Str) (c : LimiterConfig) : Move (Option Str × Str) Bool Turn → Bool
  | .act i _ =>
    match c.thread i with
    | some ⟨_, .call (.slidingWindow k member _ score seconds) _⟩ =>
      k ≠ key || (0 ≤ score && c.state.2.all (fun h => h.score ≤ score && h.member ≠ member) &&
        c.state.2.head?.all fun h => h.score + seconds * second ≤ score ||
          (c.state.1.redis.sortedSets key).all fun stored => c.state.1.now < stored.2)
    | _ => true
  | _ => true

theorem inOrder_allowed {key : Str} {c : LimiterConfig} {m : Move (Option Str × Str) Bool Turn}
    (h : inOrder key c m = true) : m.Allowed (InOrder key) c := by
  cases m with
  | act i x =>
    intro r o k ht
    cases o with
    | slidingWindow k' member max score seconds =>
      rintro rfl
      simp only [inOrder, ht, ne_eq, not_true_eq_false, decide_false, Bool.false_or,
        Bool.and_eq_true, decide_eq_true_eq, List.all_eq_true] at h
      obtain ⟨⟨hepoch, hall⟩, hlive⟩ := h
      refine ⟨hepoch, fun y hy => by simpa using hall y hy, fun y hy hlt members expires hset => ?_⟩
      rw [hy, Option.all_some, hset, Option.all_some, Bool.or_eq_true, decide_eq_true_eq,
        decide_eq_true_eq] at hlive
      exact hlive.resolve_left (by omega)
    | _ => trivial
  | _ => trivial

section

open scoped Ascii

def noCalls : LimiterConfig := ⟨((genesis noFaults 0).state, []), fun _ => none⟩

def twoCalls : List (Move (Option Str × Str) Bool Turn) :=
  [.start 0 (none, [])] ++ List.replicate 3 (.act 0 false) ++
    [.env (Turn.tick 1000000), .start 1 (none, [])] ++ List.replicate 3 (.act 1 false)

def calledTwice : LimiterConfig :=
  noCalls.play (Scheduler.ghost (M := limiterCalls 1 60) scheduler
    (recordHit (rateLimitIdentifier none []))) twoCalls

/-- It rejects the second one. -/
theorem calledTwice_exact : calledTwice.state.2.length = 2 ∧
    admittedCall calledTwice 0 = true ∧ admittedCall calledTwice 1 = false ∧
    ∀ t, (calledTwice.state.2.filter fun x => admittedCall calledTwice x.call &&
      decide (t - 60 * second < x.score) && decide (x.score ≤ t)).length ≤ 1 := by
  have hpasses : Config.passes (Scheduler.ghost (M := limiterCalls 1 60) scheduler
      (recordHit (rateLimitIdentifier none []))) (inOrder (rateLimitIdentifier none [])) noCalls
      twoCalls = true := by decide +kernel
  have hreach : Reach ((limiterCalls 1 60).ghost (recordHit (rateLimitIdentifier none [])))
      (InOrder (rateLimitIdentifier none []))
      (Config.ghost ⟨(genesis noFaults 0).state, fun _ => none⟩ []) calledTwice :=
    Config.passes_reach _ (fun _ => True) (fun _ _ _ _ _ _ => trivial)
      (fun _ _ _ _ hm => inOrder_allowed hm) trivial hpasses
  exact ⟨by decide +kernel, by decide +kernel, by decide +kernel,
    (limiter_exact (by decide) (fun _ => rfl) rfl rfl hreach).2.2⟩

end

end MultiTenantSaas
