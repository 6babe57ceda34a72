import Miscellany.StopWatch.Basic

/-!
# The sum of the intervals

The watch adds up differences of times of day (`milliseconds_stop`). Such a difference is the length
of an interval of less than a day if the interval begins and ends on the same day, and is a day too
short otherwise. So the watch shows the sum of the intervals if and only if none of them goes over
midnight and the sums are doubles (`addsUp_iff`).
-/

namespace Miscellany

namespace StopWatch

/-- A day in milliseconds. -/
def dayMs : ℤ := 86400000

/-- The calls are made one after the other, the intervals are shorter than a day, and the sums fit
in a `long`. -/
structure Timely (calls : List (Call × ℤ)) : Prop where
  order : calls.Pairwise fun x y => x.2 ≤ y.2
  short : ∀ past, past <+: calls → ∀ x ∈ (Intervals.ofCalls past).ended, x.2 - x.1 < dayMs
  fits : ∀ past, past <+: calls → (Intervals.ofCalls past).total < 2 ^ 63

/-- The watch always shows the sum of the intervals. -/
structure AddsUp (calls : List (Call × ℤ)) : Prop where
  eq_total : ∀ past, past <+: calls → (run past).elapsed = (Intervals.ofCalls past).total
  nonneg : ∀ past, past <+: calls → 0 ≤ (run past).elapsed
  mono : ∀ past c now, past ++ [(c, now)] <+: calls → c ≠ .restart → c ≠ .reset →
    (run past).elapsed ≤ (run (past ++ [(c, now)])).elapsed

/-- No interval goes over midnight. -/
def SameDay (r : Intervals) : Prop := ∀ x ∈ r.ended, x.1 / dayMs = x.2 / dayMs

/-! ### Runs -/

/-- What holds of the watch after all calls so far. -/
theorem prefix_induction {calls : List (Call × ℤ)} {P : List (Call × ℤ) → Prop} (hnil : P [])
    (hstep : ∀ past x, past ++ [x] <+: calls → P past → P (past ++ [x])) :
    ∀ past, past <+: calls → P past := by
  intro past
  induction past using List.reverseRecOn with
  | nil => exact fun _ => hnil
  | append_singleton past x ih =>
      exact fun h => hstep past x h (ih ((List.prefix_append past [x]).trans h))

theorem run_append (past : List (Call × ℤ)) (x : Call × ℤ) :
    run (past ++ [x]) = (run past).step x := by
  rw [run, List.foldl_append]
  rfl

theorem ofCalls_append (past : List (Call × ℤ)) (x : Call × ℤ) :
    Intervals.ofCalls (past ++ [x]) = (Intervals.ofCalls past).step x := by
  rw [Intervals.ofCalls, List.foldl_append]
  rfl

theorem total_cons (since : Option ℤ) (x : ℤ × ℤ) (ended : List (ℤ × ℤ)) :
    Intervals.total ⟨since, x :: ended⟩ = x.2 - x.1 + Intervals.total ⟨since, ended⟩ := by
  rw [Intervals.total, List.map_cons, List.sum_cons]
  rfl

/-- The interval that has not ended has begun at one of the calls. -/
theorem since_mem {t : ℤ} {past : List (Call × ℤ)}
    (h : (Intervals.ofCalls past).since = some t) : ∃ c, (c, t) ∈ past := by
  induction past using List.reverseRecOn with
  | nil => cases h
  | append_singleton past x ih =>
      have hlater : (Intervals.ofCalls past).since = some t → ∃ c, (c, t) ∈ past ++ [x] := by
        intro hpast
        obtain ⟨c, hc⟩ := ih hpast
        exact ⟨c, List.mem_append_left _ hc⟩
      rw [ofCalls_append] at h
      obtain ⟨c, now⟩ := x
      cases c with
      | start =>
          cases hsince : (Intervals.ofCalls past).since with
          | none =>
              have ht := Option.some.inj h
              rw [hsince, Option.getD_none] at ht
              exact ⟨.start, by rw [← ht]; simp⟩
          | some t' =>
              have ht := Option.some.inj h
              rw [hsince, Option.getD_some] at ht
              exact hlater (hsince.trans (congrArg some ht))
      | stop => cases h
      | restart =>
          have ht := Option.some.inj h
          exact ⟨.restart, by rw [← ht]; simp⟩
      | reset => cases h

/-- An interval does not end before it has begun. -/
theorem Timely.since_le {calls past : List (Call × ℤ)} {c : Call} {t now : ℤ} (h : Timely calls)
    (hpast : past ++ [(c, now)] <+: calls) (ht : (Intervals.ofCalls past).since = some t) :
    t ≤ now := by
  obtain ⟨c', hc'⟩ := since_mem ht
  have horder := h.order.sublist hpast.sublist
  exact (List.pairwise_append.1 horder).2.2 _ hc' _ (List.mem_singleton_self _)

/-! ### Days -/

theorem milliseconds_timeOfDay (now : ℤ) :
    (Stime.curTime now).timeOfDay.milliseconds = now % dayMs := by
  have htime : ((now / 3600000 % 24 * 60 + now / 60000 % 60) * 60 + now / 1000 % 60) * 1000 +
      now % 1000 = now % 86400000 := by
    omega
  have hlo : 0 ≤ now % 86400000 := Int.emod_nonneg now (by decide)
  have hhi : now % 86400000 < 86400000 := Int.emod_lt_of_pos now (by decide)
  change Int.bmod (((now / 3600000 % 24 * 60 + now / 60000 % 60) * 60 + now / 1000 % 60) * 1000 +
    now % 1000) (2 ^ 32) = now % 86400000
  rw [htime]
  apply Int.bmod_eq_of_le
  · omega
  · omega

theorem wrapLong_of_range {n : ℤ} (hlo : -2 ^ 63 ≤ n) (hhi : n < 2 ^ 63) : wrapLong n = n := by
  apply Int.bmod_eq_of_le
  · omega
  · omega

theorem milliseconds_sub (t now : ℤ) :
    ((Stime.curTime now).sub (Stime.curTime t)).milliseconds = now % dayMs - t % dayMs := by
  have hnow := Int.emod_nonneg now (by decide : dayMs ≠ 0)
  have hnow' := Int.emod_lt_of_pos now (by decide : 0 < dayMs)
  have ht := Int.emod_nonneg t (by decide : dayMs ≠ 0)
  have ht' := Int.emod_lt_of_pos t (by decide : 0 < dayMs)
  rw [Stime.sub, StimeDuration.sub, milliseconds_timeOfDay, milliseconds_timeOfDay]
  unfold dayMs at *
  apply wrapLong_of_range
  · omega
  · omega

theorem sub_timeOfDay_of_eq {t now : ℤ} (h : t / dayMs = now / dayMs) :
    now % dayMs - t % dayMs = now - t := by
  have hnow := Int.mul_ediv_add_emod now dayMs
  have ht := Int.mul_ediv_add_emod t dayMs
  rw [h] at ht
  omega

/-- The difference of the times of day is a day too short for an interval over midnight. -/
theorem sub_timeOfDay_of_ne {t now : ℤ} (h : t / dayMs ≠ now / dayMs) (hle : t ≤ now)
    (hshort : now - t < dayMs) : now % dayMs - t % dayMs = now - t - dayMs := by
  unfold dayMs at *
  omega

/-! ### Doubles -/

theorem elapsed_eq_iff {w : StopWatch} {n : ℕ} (hw : w.duration.milliseconds = n)
    (hn : n < 2 ^ 63) : w.elapsed = n ↔ HasDigits 53 n := by
  have hround : w.duration.totalMilliseconds = (roundNat 53 n : ℕ) := by
    rw [StimeDuration.totalMilliseconds, hw, roundInt_natCast]
  have hle : roundNat 53 n ≤ n + 2 ^ (63 - 53) := roundNat_le hn
  rw [elapsed, hround, ← roundNat_eq_iff]
  constructor
  · intro h
    by_cases hlt : roundNat 53 n < 2 ^ 63
    · rw [wrapLong_of_range (by omega) (by omega)] at h
      exact Int.ofNat_inj.1 h
    · -- What is rounded up to 2 ^ 63 becomes negative.
      have hwrap : wrapLong (roundNat 53 n : ℕ) = (roundNat 53 n : ℕ) - 2 ^ 64 := by
        have hshift : wrapLong (roundNat 53 n : ℕ) = wrapLong ((roundNat 53 n : ℕ) - 2 ^ 64) := by
          exact (Int.sub_bmod_right _ (2 ^ 64)).symm
        rw [hshift]
        apply wrapLong_of_range
        · omega
        · omega
      omega
  · intro h
    rw [h]
    exact wrapLong_of_range (by omega) (by omega)

/-- Rounding changes a sum by less than a day. -/
theorem elapsed_lt {w : StopWatch} {n : ℤ} (hw : w.duration.milliseconds = n) (hlo : -dayMs ≤ n)
    (hhi : n < 2 ^ 63 - dayMs) : w.elapsed < n + dayMs := by
  unfold dayMs at *
  rcases Int.lt_or_le n 0 with hneg | hpos
  · obtain ⟨m, rfl⟩ : ∃ m : ℕ, n = -(m : ℤ) := ⟨n.natAbs, by omega⟩
    have hround : w.duration.totalMilliseconds = -(m : ℤ) := by
      rw [StimeDuration.totalMilliseconds, hw]
      exact roundInt_neg (by omega) (by omega)
    rw [elapsed, hround, wrapLong_of_range (by omega) (by omega)]
    omega
  · obtain ⟨m, rfl⟩ : ∃ m : ℕ, n = m := ⟨n.natAbs, by omega⟩
    have hround : w.duration.totalMilliseconds = (roundNat 53 m : ℕ) := by
      rw [StimeDuration.totalMilliseconds, hw, roundInt_natCast]
    have hle : roundNat 53 m ≤ m + 2 ^ (63 - 53) := roundNat_le (by omega)
    rw [elapsed, hround, wrapLong_of_range (by omega) (by omega)]
    omega

/-! ### Steps -/

/-- The watch runs while there is an interval that has not ended, and has the sum of those that
have, unless one of them goes over midnight. -/
structure Tracks (w : StopWatch) (r : Intervals) : Prop where
  running : w.running = r.since.isSome
  timePoint : ∀ t, r.since = some t → w.timePoint = Stime.curTime t
  total_nonneg : 0 ≤ r.total
  duration : SameDay r → w.duration.milliseconds = r.total

theorem tracks_new : Tracks new Intervals.none where
  running := rfl
  timePoint := by
    intro t ht
    cases ht
  total_nonneg := Int.le_refl 0
  duration _ := rfl

theorem tracks_reset (w : StopWatch) : Tracks w.reset Intervals.none where
  running := rfl
  timePoint := by
    intro t ht
    cases ht
  total_nonneg := Int.le_refl 0
  duration _ := rfl

theorem tracks_restart (now : ℤ) : Tracks (restart now) ⟨some now, []⟩ where
  running := rfl
  timePoint := by
    intro t ht
    rw [← Option.some.inj ht]
    rfl
  total_nonneg := Int.le_refl 0
  duration _ := rfl

variable {w : StopWatch} {r : Intervals}

/-- A redundant start changes nothing. -/
theorem Tracks.start (h : Tracks w r) (now : ℤ) :
    Tracks (w.start now) (r.step (.start, now)) := by
  cases hsince : r.since with
  | none =>
      have hstep : r.step (.start, now) = ⟨some now, r.ended⟩ := by
        rw [Intervals.step, hsince]
        rfl
      have hrunning : w.running = false := by rw [h.running, hsince, Option.isSome_none]
      have hstart : w.start now = { w with timePoint := Stime.curTime now, running := true } := by
        rw [StopWatch.start, hrunning]
        rfl
      rw [hstep, hstart]
      refine ⟨rfl, fun t ht => ?_, h.total_nonneg, h.duration⟩
      rw [← Option.some.inj ht]
  | some t =>
      have hstep : r.step (.start, now) = r := by
        rw [Intervals.step, hsince, Option.getD_some, ← hsince]
      have hrunning : w.running = true := by rw [h.running, hsince, Option.isSome_some]
      have hstart : w.start now = w := by
        rw [StopWatch.start, hrunning]
        rfl
      rwa [hstep, hstart]

/-- A redundant stop changes nothing. -/
theorem Tracks.stop_none (h : Tracks w r) (hsince : r.since = none) (now : ℤ) :
    Tracks (w.stop now) (r.step (.stop, now)) := by
  have hstep : r.step (.stop, now) = r := by
    obtain ⟨since, ended⟩ := r
    obtain rfl : since = none := hsince
    rfl
  have hrunning : w.running = false := by rw [h.running, hsince, Option.isSome_none]
  have hstop : w.stop now = w := by
    rw [StopWatch.stop, hrunning]
    rfl
  rwa [hstep, hstop]

theorem step_stop {t now : ℤ} (hsince : r.since = some t) :
    r.step (.stop, now) = ⟨none, (t, now) :: r.ended⟩ := by
  rw [Intervals.step, hsince]
  rfl

/-- A stop adds the difference of the times of day. -/
theorem Tracks.milliseconds_stop (h : Tracks w r) {t now : ℤ} (hsince : r.since = some t)
    (hday : SameDay r) :
    (w.stop now).duration.milliseconds =
      wrapLong (r.total + (now % dayMs - t % dayMs)) := by
  have hrunning : w.running = true := by rw [h.running, hsince, Option.isSome_some]
  rw [StopWatch.stop, hrunning, if_pos rfl, StimeDuration.add, h.timePoint t hsince,
    milliseconds_sub, h.duration hday]

theorem Tracks.stop (h : Tracks w r) {t now : ℤ} (hsince : r.since = some t) (hle : t ≤ now)
    (hfits : (r.step (.stop, now)).total < 2 ^ 63) :
    Tracks (w.stop now) (r.step (.stop, now)) := by
  rw [step_stop hsince] at hfits ⊢
  have hrunning : w.running = true := by rw [h.running, hsince, Option.isSome_some]
  have hnonneg := h.total_nonneg
  have htotal : Intervals.total ⟨none, (t, now) :: r.ended⟩ = now - t + r.total :=
    total_cons none (t, now) r.ended
  refine ⟨?_, ?_, ?_, ?_⟩
  · rw [StopWatch.stop, hrunning]
    rfl
  · intro t' ht'
    cases ht'
  · omega
  · intro hday
    have hpast : SameDay r := fun x hx => hday x (List.mem_cons_of_mem _ hx)
    have hlast : t / dayMs = now / dayMs := hday (t, now) List.mem_cons_self
    rw [h.milliseconds_stop hsince hpast, sub_timeOfDay_of_eq hlast, htotal, Int.add_comm]
    exact wrapLong_of_range (by omega) (by omega)

/-- The watch shows less than the sum after the first interval over midnight. -/
theorem Tracks.elapsed_stop_lt (h : Tracks w r) {t now : ℤ} (hsince : r.since = some t)
    (hday : SameDay r) (hne : t / dayMs ≠ now / dayMs) (hle : t ≤ now)
    (hshort : now - t < dayMs) (hfits : (r.step (.stop, now)).total < 2 ^ 63) :
    (w.stop now).elapsed < (r.step (.stop, now)).total := by
  rw [step_stop hsince, total_cons] at hfits ⊢
  change now - t + r.total < 2 ^ 63 at hfits
  change _ < now - t + r.total
  have hnonneg := h.total_nonneg
  have hms : (w.stop now).duration.milliseconds =
      wrapLong (r.total + (now % dayMs - t % dayMs)) := h.milliseconds_stop hsince hday
  rw [sub_timeOfDay_of_ne hne hle hshort, wrapLong_of_range] at hms
  · have hlt := elapsed_lt hms
    unfold dayMs at *
    omega
  · unfold dayMs at *
    omega
  · unfold dayMs at *
    omega

/-! ### Runs -/

theorem Timely.tracks {calls : List (Call × ℤ)} (h : Timely calls) :
    ∀ past, past <+: calls → Tracks (run past) (Intervals.ofCalls past) := by
  apply prefix_induction
  · exact tracks_new
  · intro past x hpast ih
    have hfits := h.fits _ hpast
    rw [ofCalls_append] at hfits
    rw [run_append, ofCalls_append]
    obtain ⟨c, now⟩ := x
    cases c with
    | start => exact ih.start now
    | stop =>
        cases hsince : (Intervals.ofCalls past).since with
        | none => exact ih.stop_none hsince now
        | some t => exact ih.stop hsince (h.since_le hpast hsince) hfits
    | restart => exact tracks_restart now
    | reset => exact tracks_reset (run past)

theorem Timely.elapsed_eq_iff {calls past : List (Call × ℤ)} (h : Timely calls)
    (hpast : past <+: calls) (hday : SameDay (Intervals.ofCalls past)) :
    (run past).elapsed = (Intervals.ofCalls past).total ↔
      HasDigits 53 (Intervals.ofCalls past).total.toNat := by
  have htracks := h.tracks past hpast
  have hnat := Int.toNat_of_nonneg htracks.total_nonneg
  have hms := htracks.duration hday
  have hfits := h.fits past hpast
  rw [← hnat] at hms hfits
  rw [← StopWatch.elapsed_eq_iff hms (by omega), hnat]

/-- A run that adds up has no interval over midnight. -/
theorem AddsUp.sameDay {calls : List (Call × ℤ)} (hadds : AddsUp calls) (h : Timely calls) :
    ∀ past, past <+: calls → SameDay (Intervals.ofCalls past) := by
  apply prefix_induction
  · exact fun x hx => absurd hx List.not_mem_nil
  · intro past x hpast ih
    have htotal := hadds.eq_total _ hpast
    have hshort := h.short _ hpast
    have hfits := h.fits _ hpast
    rw [run_append, ofCalls_append] at htotal
    rw [ofCalls_append] at hshort hfits ⊢
    obtain ⟨c, now⟩ := x
    cases c with
    | start => exact ih
    | stop =>
        cases hsince : (Intervals.ofCalls past).since with
        | none =>
            intro x hx
            rw [Intervals.step, hsince] at hx
            exact ih x hx
        | some t =>
            have hle := h.since_le hpast hsince
            have hlast : (t, now) ∈ ((Intervals.ofCalls past).step (.stop, now)).ended := by
              rw [step_stop hsince]
              exact List.mem_cons_self
            -- The first interval over midnight would make the watch show too little.
            have hday : t / dayMs = now / dayMs := by
              by_contra hne
              have htracks := h.tracks past ((List.prefix_append past _).trans hpast)
              have hlt := htracks.elapsed_stop_lt hsince ih hne hle (hshort _ hlast) hfits
              exact absurd htotal (Int.ne_of_lt hlt)
            rw [step_stop hsince]
            intro x hx
            rcases List.mem_cons.1 hx with rfl | hx
            · exact hday
            · exact ih x hx
    | restart => exact fun x hx => absurd hx List.not_mem_nil
    | reset => exact fun x hx => absurd hx List.not_mem_nil

/-- Only a restart or a reset makes the sum smaller. -/
theorem Timely.total_le {calls past : List (Call × ℤ)} {c : Call} {now : ℤ} (h : Timely calls)
    (hpast : past ++ [(c, now)] <+: calls) (hrestart : c ≠ .restart) (hreset : c ≠ .reset) :
    (Intervals.ofCalls past).total ≤ (Intervals.ofCalls (past ++ [(c, now)])).total := by
  rw [ofCalls_append]
  cases c with
  | start => exact Int.le_refl _
  | stop =>
      cases hsince : (Intervals.ofCalls past).since with
      | none =>
          rw [Intervals.step, hsince]
          exact Int.le_refl _
      | some t =>
          have hle := h.since_le hpast hsince
          rw [step_stop hsince, total_cons]
          change (Intervals.ofCalls past).total ≤ now - t + (Intervals.ofCalls past).total
          omega
  | restart => exact absurd rfl hrestart
  | reset => exact absurd rfl hreset

/-- The watch adds up if and only if no interval that is measured goes over midnight, and each sum
is a double. -/
theorem addsUp_iff {calls : List (Call × ℤ)} (h : Timely calls) :
    AddsUp calls ↔ ∀ past, past <+: calls →
      SameDay (Intervals.ofCalls past) ∧ HasDigits 53 (Intervals.ofCalls past).total.toNat := by
  constructor
  · intro hadds past hpast
    have hday := hadds.sameDay h past hpast
    exact ⟨hday, (h.elapsed_eq_iff hpast hday).1 (hadds.eq_total past hpast)⟩
  · intro hgood
    have htotal : ∀ past, past <+: calls → (run past).elapsed = (Intervals.ofCalls past).total := by
      intro past hpast
      obtain ⟨hday, hdouble⟩ := hgood past hpast
      exact (h.elapsed_eq_iff hpast hday).2 hdouble
    refine ⟨htotal, fun past hpast => ?_, fun past c now hpast hrestart hreset => ?_⟩
    · rw [htotal past hpast]
      exact (h.tracks past hpast).total_nonneg
    · rw [htotal past ((List.prefix_append past _).trans hpast), htotal _ hpast]
      exact h.total_le hpast hrestart hreset

/-- Two intervals on one day. -/
def sameDayCalls : List (Call × ℤ) :=
  [(.start, 1000), (.start, 2000), (.stop, 2500), (.start, 4000), (.stop, 4250)]

theorem addsUp_sameDayCalls : Timely sameDayCalls ∧ AddsUp sameDayCalls := by
  have hall : ∀ past ∈ sameDayCalls.inits,
      (∀ x ∈ (Intervals.ofCalls past).ended, x.1 / dayMs = x.2 / dayMs ∧ x.2 - x.1 < dayMs) ∧
        (Intervals.ofCalls past).total < 2 ^ 53 := by
    decide
  have htimely : Timely sameDayCalls := by
    refine ⟨by decide, fun past hpast x hx => ?_, fun past hpast => ?_⟩
    · exact ((hall past ((List.mem_inits _ _).2 hpast)).1 x hx).2
    · exact Int.lt_trans (hall past ((List.mem_inits _ _).2 hpast)).2 (by decide)
  refine ⟨htimely, (addsUp_iff htimely).2 fun past hpast => ?_⟩
  obtain ⟨hday, htotal⟩ := hall past ((List.mem_inits _ _).2 hpast)
  exact ⟨fun x hx => (hday x hx).1, hasDigits_of_lt (by omega)⟩

/-- An interval of two milliseconds over midnight. -/
def midnightCalls : List (Call × ℤ) := [(.start, 86399999), (.stop, 86400001)]

theorem not_addsUp_midnightCalls :
    Timely midnightCalls ∧ (run midnightCalls).elapsed = -86399998 ∧ ¬ AddsUp midnightCalls := by
  have hall : ∀ past ∈ midnightCalls.inits,
      (∀ x ∈ (Intervals.ofCalls past).ended, x.2 - x.1 < dayMs) ∧
        (Intervals.ofCalls past).total < 2 ^ 63 := by
    decide
  have helapsed : (run midnightCalls).elapsed = -86399998 := by decide
  refine ⟨⟨by decide, fun past hpast => ?_, fun past hpast => ?_⟩, helapsed, fun hadds => ?_⟩
  · exact (hall past ((List.mem_inits _ _).2 hpast)).1
  · exact (hall past ((List.mem_inits _ _).2 hpast)).2
  · have hnonneg := hadds.nonneg midnightCalls List.prefix_rfl
    rw [helapsed] at hnonneg
    exact absurd hnonneg (by decide)

end StopWatch

end Miscellany
