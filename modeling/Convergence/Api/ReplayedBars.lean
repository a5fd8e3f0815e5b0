import Convergence.Api.MarketReplay

/-!
# Which bars a replay shows

As long as the cursor is a natural number, a tick of the replay shows the bars from the cursor on
and moves the cursor behind the last of them, and the replay stops at the end. A client that seeks
to a position between two bars, or that asks for a speed between two whole ones, takes the cursor
off the bars; the controls of the frontend round a position down before they send it, and the bridge
itself does not. `OnBars` says of every event whether it leaves the cursor on a bar.

## Main definitions

* `Bridge.ShowsEachBarOnce`: what is asked of a replay.
* `Bridge.OnBars`: the condition on its events.

## Main results

* `Bridge.AtBar.advance`: what one event shows.
* `Bridge.sent_eq`: the bars that the clients are sent.
* `Bridge.showsEachBarOnce_iff`.
-/

namespace Convergence

namespace Bridge

open JsText

variable {Bar : Type*}

/-- The event does not change the position: it is no seek, and no restart from the end. -/
def NoJump (d : ReplayData Bar) (s : Replay) : ReplayEvent → Prop
  | .seek _ => False
  | .start => s.running ∨ s.cursor < d.maxBars
  | _ => True

/-- The event neither changes the position nor stops the replay. -/
def Undisturbed (d : ReplayData Bar) (s : Replay) (event : ReplayEvent) : Prop :=
  NoJump d s event ∧ event ≠ .stop

/-- The state after some events. A tick is allowed even while no interval is live. -/
def replayAfter (d : ReplayData Bar) (events : List ReplayEvent) : Replay :=
  (marketReplay d).run (Replay.init d) events

/-- Replay shows every bar exactly once. -/
structure ShowsEachBarOnce (d : ReplayData Bar) (events : List ReplayEvent) : Prop where
  /-- The cursor is always an integer from 0 to `maxBars`. -/
  whole : ∀ before, before <+: events →
    ∃ c : ℕ, (replayAfter d before).cursor = c ∧ c ≤ d.maxBars
  /-- Between two changes of position the indices are consecutive, from the cursor on. -/
  consecutive : ∀ before stretch, before ++ stretch <+: events →
    (marketReplay d).Guarded (NoJump d) (replayAfter d before) stretch →
    ∃ k : ℕ, (marketReplay d).emitted (processed d) (replayAfter d before) stretch =
        (List.range k).map (fun i : ℕ => (replayAfter d before).cursor + i) ∧
      (replayAfter d (before ++ stretch)).cursor = (replayAfter d before).cursor + k
  /-- A running replay goes on until the last bar, unless a client stops it. -/
  goes_on : ∀ before stretch, before ++ stretch <+: events → (replayAfter d before).running →
    (marketReplay d).Guarded (Undisturbed d) (replayAfter d before) stretch →
    (replayAfter d (before ++ stretch)).cursor < d.maxBars →
    (replayAfter d (before ++ stretch)).running
  /-- It gets there, and it stops there. -/
  stops : ∀ before stretch, before ++ stretch <+: events → (replayAfter d before).running →
    (marketReplay d).Guarded (Undisturbed d) (replayAfter d before) stretch →
    d.maxBars < (replayAfter d before).cursor + stretch.count .tick →
    ¬ (replayAfter d (before ++ stretch)).running ∧
      (replayAfter d (before ++ stretch)).cursor = d.maxBars

/-- The event leaves the cursor on a bar: a position that is asked for within the bars is whole, and
a tick that does not reach the end has a whole speed, or one that is less below a whole number than
the sum of the cursor and the speed can tell. -/
def OnBars (d : ReplayData Bar) (s : Replay) : ReplayEvent → Prop
  | .seek (some (.finite cursor)) => cursor ≤ 0 ∨ d.maxBars - 1 ≤ cursor ∨ cursor = ⌊cursor⌋₊
  | .tick => s.running → s.cursor < d.maxBars → d.maxBars ≤ s.cursor + s.speed ∨
      ⌈s.speed⌉₊ - s.speed ≤ Binary64.ulp (s.cursor + s.speed) / 2
  | _ => True

/-! ### Positions and speeds -/

section Clamp

variable {d : ReplayData Bar} {s : Replay}

theorem low_le_clamp (low high : ℚ) (x : JsonNumber) : low ≤ clamp low high x := by
  cases x with
  | finite x => exact le_max_left _ _
  | infinity negative => cases negative <;> simp [clamp]

theorem clamp_le {low high : ℚ} (h : low ≤ high) (x : JsonNumber) : clamp low high x ≤ high := by
  cases x with
  | finite x => exact max_le h (min_le_right _ _)
  | infinity negative => cases negative <;> simp [clamp, h]

/-- Whole speeds are never in the way. -/
theorem onBars_tick_of_whole {k : ℕ} (hspeed : s.speed = k) : OnBars d s .tick := by
  intro _ _
  right
  rw [hspeed, Nat.ceil_natCast, sub_self]
  exact (half_pos (Binary64.ulp_pos _)).le

/-- The position after a seek is whole exactly when the argument is, or is cut off. -/
theorem seek_whole_iff (hbars : 0 < d.maxBars) (cursor : Option JsonNumber) :
    (∃ c : ℕ, clamp 0 (d.maxBars - 1) (orElse 0 cursor) = c) ↔ OnBars d s (.seek cursor) := by
  have hlast : (d.maxBars : ℚ) - 1 = (d.maxBars - 1 : ℕ) := by
    rw [Nat.cast_sub hbars, Nat.cast_one]
  have hhigh : (0 : ℚ) ≤ d.maxBars - 1 := by
    rw [hlast]
    exact Nat.cast_nonneg _
  cases cursor with
  | none =>
    refine iff_of_true ⟨0, ?_⟩ trivial
    simp [orElse, clamp, hhigh]
  | some x =>
    cases x with
    | infinity negative =>
      refine iff_of_true ?_ trivial
      cases negative
      · exact ⟨d.maxBars - 1, by simp [orElse, clamp, hlast]⟩
      · exact ⟨0, by simp [orElse, clamp]⟩
    | finite x =>
      have helse : orElse 0 (some (.finite x)) = .finite x := by
        rw [orElse]
        split_ifs with hzero
        · exact hzero.symm
        · rfl
      rw [helse, clamp, OnBars]
      rcases le_total x 0 with hneg | hpos
      · refine iff_of_true ⟨0, ?_⟩ (Or.inl hneg)
        rw [max_eq_left ((min_le_left _ _).trans hneg), Nat.cast_zero]
      rcases le_or_gt ((d.maxBars : ℚ) - 1) x with hend | hinside
      · refine iff_of_true ⟨d.maxBars - 1, ?_⟩ (Or.inr (Or.inl hend))
        rw [min_eq_right hend, max_eq_right hhigh, hlast]
      · rw [min_eq_left hinside.le, max_eq_right hpos]
        constructor
        · rintro ⟨c, hc⟩
          exact Or.inr (Or.inr (by rw [hc, Nat.floor_natCast]))
        · rintro (hle | hle | hfloor)
          · exact ⟨0, by rw [le_antisymm hle hpos, Nat.cast_zero]⟩
          · exact absurd hle hinside.not_ge
          · exact ⟨_, hfloor⟩

end Clamp

/-! ### Ticks -/

/-- The cursor is at the bar `c`, or behind the last one. -/
structure AtBar (d : ReplayData Bar) (c : ℕ) (s : Replay) : Prop where
  cursor_eq : s.cursor = c
  le : c ≤ d.maxBars
  one_le_speed : 1 ≤ s.speed

/-- The number of turns of the loop of `replayTick`. -/
def turns (d : ReplayData Bar) (s : Replay) : ℕ := ⌈barsThisTick d s⌉₊

namespace AtBar

variable {d : ReplayData Bar} {c : ℕ} {s : Replay} {event : ReplayEvent}

theorem barsThisTick_eq (h : AtBar d c s) :
    barsThisTick d s = min s.speed (d.maxBars - c : ℕ) := by
  have hmax := d.maxBars_lt
  rw [barsThisTick, h.cursor_eq, ← Nat.cast_sub h.le, Binary64.round_natCast_of_lt (by omega)]

theorem turns_pos (h : AtBar d c s) (hlt : c < d.maxBars) : 0 < turns d s := by
  rw [turns, Nat.ceil_pos, h.barsThisTick_eq, lt_min_iff]
  exact ⟨one_pos.trans_le h.one_le_speed, by exact_mod_cast Nat.sub_pos_of_lt hlt⟩

theorem turns_le (h : AtBar d c s) : turns d s ≤ d.maxBars - c := by
  rw [turns, Nat.ceil_le, h.barsThisTick_eq]
  exact min_le_right _ _

/-- The additions in the loop are exact. -/
theorem tickIndices_eq (h : AtBar d c s) :
    tickIndices d s = (List.range' c (turns d s)).map Nat.cast := by
  have hmax := d.maxBars_lt
  have hturns := h.turns_le
  rw [tickIndices, List.range'_eq_map_range, List.map_map]
  refine List.map_congr_left fun b hb => ?_
  have hb' : b < turns d s := List.mem_range.mp hb
  rw [h.cursor_eq, ← Nat.cast_add, Binary64.round_natCast_of_lt (by omega), Function.comp_apply]

/-- The cursor is moved behind the last index exactly under the condition on a tick. -/
theorem round_cursor_iff (h : AtBar d c s) (hlt : c < d.maxBars) (hrun : s.running) :
    Binary64.round (s.cursor + barsThisTick d s) = (c + turns d s : ℕ) ↔ OnBars d s .tick := by
  have hmax := d.maxBars_lt
  have hcast : s.cursor < d.maxBars := by
    rw [h.cursor_eq]
    exact_mod_cast hlt
  have hon : OnBars d s .tick ↔ d.maxBars ≤ s.cursor + s.speed ∨
      ⌈s.speed⌉₊ - s.speed ≤ Binary64.ulp (s.cursor + s.speed) / 2 :=
    ⟨fun hon => hon hrun hcast, fun hon _ _ => hon⟩
  have hsub : ((d.maxBars - c : ℕ) : ℚ) = d.maxBars - s.cursor := by
    rw [Nat.cast_sub h.le, h.cursor_eq]
  rw [hon]
  rcases le_or_gt (d.maxBars : ℚ) (s.cursor + s.speed) with hend | hinside
  · have hbars : barsThisTick d s = (d.maxBars - c : ℕ) := by
      rw [h.barsThisTick_eq, min_eq_right]
      linarith
    refine iff_of_true ?_ (Or.inl hend)
    rw [turns, hbars, Nat.ceil_natCast, h.cursor_eq, ← Nat.cast_add]
    exact Binary64.round_natCast_of_lt (by omega)
  · have hbars : barsThisTick d s = s.speed := by
      rw [h.barsThisTick_eq, min_eq_left]
      linarith
    have hspeed := h.one_le_speed
    have hnonneg : 0 ≤ s.cursor := h.cursor_eq ▸ Nat.cast_nonneg c
    have hsmall : |s.cursor + s.speed| < 2 ^ 52 := by
      rw [abs_of_nonneg (by linarith)]
      exact hinside.trans (by exact_mod_cast hmax.trans (by norm_num))
    have habove : |s.cursor + s.speed - ((c + ⌈s.speed⌉₊ : ℕ) : ℤ)| = ⌈s.speed⌉₊ - s.speed := by
      rw [Int.cast_natCast, Nat.cast_add, ← h.cursor_eq, add_sub_add_left_eq_sub, abs_sub_comm,
        abs_of_nonneg (sub_nonneg.mpr (Nat.le_ceil s.speed))]
    rw [turns, hbars, or_iff_right hinside.not_ge, ← habove, ← Int.cast_natCast (R := ℚ)]
    exact Binary64.round_eq_intCast_iff hsmall

end AtBar

section Tick

variable {d : ReplayData Bar} {s : Replay}

/-- A tick of a replay that is stopped, or at its end, stops it. -/
theorem tick_stop (h : ¬ s.running ∨ d.maxBars ≤ s.cursor) :
    (marketReplay d).step s .tick = (stopReplay s : Replay × List (Broadcast Bar)).1 ∧
      processed d s .tick = [] := by
  simp only [marketReplay, onEvent, replayTick, processed, if_pos h, and_self]

/-- Any other tick. -/
theorem tick_run (hrun : s.running) (hlt : s.cursor < d.maxBars) :
    (marketReplay d).step s .tick =
        { s with cursor := Binary64.round (s.cursor + barsThisTick d s) } ∧
      processed d s .tick = tickIndices d s := by
  have h : ¬ (¬ s.running ∨ d.maxBars ≤ s.cursor) := by
    rw [not_or, not_not, not_le]
    exact ⟨hrun, hlt⟩
  simp only [marketReplay, onEvent, replayTick, processed, if_neg h, and_self]

end Tick

/-! ### What one event does -/

/-- Every speed is at least 1. -/
theorem one_le_speed_step {d : ReplayData Bar} {s : Replay} (h : 1 ≤ s.speed)
    (event : ReplayEvent) : 1 ≤ ((marketReplay d).step s event).speed := by
  cases event with
  | start => simpa [marketReplay, onEvent] using h
  | stop => simpa [marketReplay, onEvent] using h
  | seek cursor => exact h
  | speed speed => simpa [marketReplay, onEvent] using low_le_clamp 1 100 _
  | tick =>
    by_cases hstop : ¬ s.running ∨ d.maxBars ≤ s.cursor
    · simpa [(tick_stop hstop).1] using h
    · rw [not_or, not_not, not_le] at hstop
      simpa [(tick_run hstop.1 hstop.2).1] using h

namespace AtBar

variable {d : ReplayData Bar} {c : ℕ} {s : Replay} {event : ReplayEvent}

theorem floor_cursor (h : AtBar d c s) : ⌊s.cursor⌋₊ = c := by
  rw [h.cursor_eq, Nat.floor_natCast]

theorem cursor_lt_iff (h : AtBar d c s) : s.cursor < d.maxBars ↔ c < d.maxBars := by
  rw [h.cursor_eq, Nat.cast_lt]

/-- A tick shows at least one bar. -/
theorem tick (h : AtBar d c s) (hrun : s.running) (hlt : c < d.maxBars) (hon : OnBars d s .tick) :
    AtBar d (c + turns d s) ((marketReplay d).step s .tick) := by
  have hturns := h.turns_le
  rw [(tick_run hrun (h.cursor_lt_iff.mpr hlt)).1]
  exact ⟨(h.round_cursor_iff hlt hrun).mpr hon, by omega, h.one_le_speed⟩

/-- **An event shows the bars from the cursor on, up to the next cursor.** -/
theorem advance (h : AtBar d c s) (hbars : 0 < d.maxBars) (hon : OnBars d s event)
    (hstay : NoJump d s event) : ∃ k, AtBar d (c + k) ((marketReplay d).step s event) ∧
      processed d s event = (List.range' c k).map Nat.cast := by
  cases event with
  | start =>
    have hcursor : (startReplay d s).1.cursor = s.cursor := by
      rw [startReplay_cursor d s hbars, if_neg]
      rintro ⟨hrun, hend⟩
      exact hstay.elim hrun hend.not_gt
    exact ⟨0, ⟨hcursor.trans h.cursor_eq, h.le, one_le_speed_step h.one_le_speed _⟩, rfl⟩
  | stop =>
    refine ⟨0, ⟨?_, h.le, one_le_speed_step h.one_le_speed _⟩, rfl⟩
    simpa [marketReplay, onEvent] using h.cursor_eq
  | seek cursor => exact hstay.elim
  | speed speed =>
    refine ⟨0, ⟨?_, h.le, one_le_speed_step h.one_le_speed _⟩, rfl⟩
    simpa [marketReplay, onEvent] using h.cursor_eq
  | tick =>
    by_cases hgo : s.running ∧ c < d.maxBars
    · obtain ⟨hrun, hlt⟩ := hgo
      refine ⟨turns d s, h.tick hrun hlt hon, ?_⟩
      rw [(tick_run hrun (h.cursor_lt_iff.mpr hlt)).2, h.tickIndices_eq]
    · have hstop : ¬ s.running ∨ d.maxBars ≤ s.cursor := by
        rw [← not_lt, h.cursor_lt_iff]
        exact not_and_or.mp hgo
      refine ⟨0, ⟨?_, h.le, one_le_speed_step h.one_le_speed _⟩, (tick_stop hstop).2⟩
      simpa [(tick_stop hstop).1] using h.cursor_eq

/-- Every event that the condition allows leaves the cursor at a bar. -/
theorem keep (h : AtBar d c s) (hbars : 0 < d.maxBars) (hon : OnBars d s event) :
    ∃ c', AtBar d c' ((marketReplay d).step s event) := by
  by_cases hstay : NoJump d s event
  · obtain ⟨k, hnext, -⟩ := h.advance hbars hon hstay
    exact ⟨c + k, hnext⟩
  cases event with
  | start =>
    have hcursor : (startReplay d s).1.cursor = 0 := by
      rw [startReplay_cursor d s hbars, if_pos]
      rwa [NoJump, not_or, not_lt] at hstay
    exact ⟨0, hcursor.trans Nat.cast_zero.symm, Nat.zero_le _, one_le_speed_step h.one_le_speed _⟩
  | seek cursor =>
    obtain ⟨c', hc'⟩ := (seek_whole_iff (s := s) hbars cursor).mpr hon
    refine ⟨c', hc', ?_, h.one_le_speed⟩
    have hlast : (0 : ℚ) ≤ d.maxBars - 1 := by
      rw [sub_nonneg]
      exact_mod_cast hbars
    have hle : (c' : ℚ) ≤ d.maxBars - 1 := hc' ▸ clamp_le hlast _
    have hlt : (c' : ℚ) ≤ d.maxBars := by linarith
    exact_mod_cast hlt
  | stop => exact absurd trivial hstay
  | speed speed => exact absurd trivial hstay
  | tick => exact absurd trivial hstay

end AtBar

/-! ### The end of a replay -/

/-- The replay has stopped behind the last bar. -/
def AtEnd (d : ReplayData Bar) (s : Replay) : Prop := ¬ s.running ∧ s.cursor = d.maxBars

section AtEnd

variable {d : ReplayData Bar} {c : ℕ} {s : Replay} {event : ReplayEvent}

theorem AtEnd.step (h : AtEnd d s) (hstay : Undisturbed d s event) :
    AtEnd d ((marketReplay d).step s event) := by
  obtain ⟨hrun, hcursor⟩ := h
  obtain ⟨hjump, hstop⟩ := hstay
  cases event with
  | start => exact absurd hjump (not_or.mpr ⟨hrun, hcursor.not_lt⟩)
  | stop => exact absurd rfl hstop
  | seek cursor => exact hjump.elim
  | speed speed => simpa [AtEnd, marketReplay, onEvent, hrun] using hcursor
  | tick => simpa [AtEnd, (tick_stop (d := d) (Or.inl hrun)).1] using hcursor

/-- An undisturbed event of a running replay: a tick moves on, or stops the replay at its end. -/
theorem AtBar.run_step (h : AtBar d c s) (hbars : 0 < d.maxBars) (hrun : s.running)
    (hon : OnBars d s event) (hstay : Undisturbed d s event) :
    AtEnd d ((marketReplay d).step s event) ∨ ((marketReplay d).step s event).running ∧
      ∃ c', AtBar d c' ((marketReplay d).step s event) ∧
        c + (if event = .tick then 1 else 0) ≤ c' := by
  obtain ⟨hjump, hstop⟩ := hstay
  cases event with
  | start =>
    obtain ⟨k, hnext, -⟩ := h.advance hbars hon hjump
    exact Or.inr ⟨startReplay_running d s hbars, c + k, hnext, by simp⟩
  | stop => exact absurd rfl hstop
  | seek cursor => exact hjump.elim
  | speed speed =>
    obtain ⟨k, hnext, -⟩ := h.advance hbars hon hjump
    exact Or.inr ⟨by simpa [marketReplay, onEvent] using hrun, c + k, hnext, by simp⟩
  | tick =>
    rcases Nat.lt_or_ge c d.maxBars with hlt | hend
    · have hturns := h.turns_pos hlt
      refine Or.inr ⟨?_, c + turns d s, h.tick hrun hlt hon, ?_⟩
      · rw [(tick_run hrun (h.cursor_lt_iff.mpr hlt)).1]
        exact hrun
      · rw [if_pos rfl]
        omega
    · have hcursor : s.cursor = d.maxBars := by rw [h.cursor_eq, le_antisymm h.le hend]
      refine Or.inl ?_
      simpa [AtEnd, (tick_stop (Or.inr hcursor.ge)).1] using hcursor

end AtEnd

/-! ### Runs -/

section Runs

variable {d : ReplayData Bar} {events : List ReplayEvent}

theorem replayAfter_append (before stretch : List ReplayEvent) :
    replayAfter d (before ++ stretch) =
      (marketReplay d).run (replayAfter d before) stretch :=
  (marketReplay d).run_append _ before stretch

theorem one_le_speed_replayAfter (events : List ReplayEvent) :
    1 ≤ (replayAfter d events).speed := by
  induction events using List.reverseRecOn with
  | nil => exact le_rfl
  | append_singleton events event ih =>
    rw [replayAfter_append]
    exact one_le_speed_step ih event

/-- As long as the condition holds, the cursor is at a bar. -/
theorem exists_atBar (hbars : 0 < d.maxBars)
    (h : (marketReplay d).Guarded (OnBars d) (Replay.init d) events) :
    ∃ c, AtBar d c (replayAfter d events) := by
  refine h.run_invariant (I := fun s => ∃ c, AtBar d c s) ⟨0, ?_⟩ ?_
  · exact ⟨Nat.cast_zero.symm, Nat.zero_le _, le_rfl⟩
  · rintro s event ⟨c, hc⟩ hon
    exact hc.keep hbars hon

/-- What an undisturbed stretch keeps: the cursor is at a bar, and the replay is running unless it
has come to its end. -/
def Going (d : ReplayData Bar) (s : Replay) : Prop := (∃ c, AtBar d c s) ∧ (s.running ∨ AtEnd d s)

theorem Going.step {s : Replay} {event : ReplayEvent} (hbars : 0 < d.maxBars) (h : Going d s)
    (hguard : OnBars d s event ∧ Undisturbed d s event) :
    Going d ((marketReplay d).step s event) := by
  obtain ⟨⟨c, hc⟩, hrun | hend⟩ := h
  · refine ⟨hc.keep hbars hguard.1, ?_⟩
    rcases hc.run_step hbars hrun hguard.1 hguard.2 with hend | ⟨hrun', -⟩
    · exact Or.inr hend
    · exact Or.inl hrun'
  · exact ⟨hc.keep hbars hguard.1, Or.inr (hend.step hguard.2)⟩

/-- Where the condition holds, a stretch shows consecutive bars. -/
theorem emitted_eq {s : Replay} {c : ℕ} {stretch : List ReplayEvent} (hbars : 0 < d.maxBars)
    (h : AtBar d c s) (hon : (marketReplay d).Guarded (OnBars d) s stretch)
    (hstay : (marketReplay d).Guarded (NoJump d) s stretch) :
    ∃ k : ℕ, (marketReplay d).emitted (processed d) s stretch =
        (List.range k).map (fun i : ℕ => s.cursor + i) ∧
      ((marketReplay d).run s stretch).cursor = s.cursor + k := by
  have hkeep : ∀ s event, (∃ c, AtBar d c s) → OnBars d s event ∧ NoJump d s event →
      ∃ c, AtBar d c ((marketReplay d).step s event) :=
    fun s event ⟨c, hc⟩ hguard => hc.keep hbars hguard.1
  obtain ⟨c', hc'⟩ := (hon.and hstay).run_invariant ⟨c, h⟩ hkeep
  obtain ⟨hle, hemit⟩ := (hon.and hstay).emitted_eq_range' (processed d) Nat.cast
    (fun s => ⌊s.cursor⌋₊) ⟨c, h⟩ hkeep fun s event ⟨c, hc⟩ hguard => by
      obtain ⟨k, hnext, hshown⟩ := hc.advance hbars hguard.1 hguard.2
      rw [hc.floor_cursor, hnext.floor_cursor, hshown, Nat.add_sub_cancel_left]
      exact ⟨Nat.le_add_right c k, rfl⟩
  rw [h.floor_cursor, hc'.floor_cursor] at hle hemit
  refine ⟨c' - c, ?_, ?_⟩
  · rw [hemit, List.range'_eq_map_range, List.map_map, h.cursor_eq]
    exact List.map_congr_left fun i _ => Nat.cast_add c i
  · rw [hc'.cursor_eq, h.cursor_eq, ← Nat.cast_add, Nat.add_sub_cancel' hle]

/-- **Where the condition holds, every node is sent its bars one after the other**, with its dataset
starting again when it is shorter than the longest. -/
theorem sent_eq {s : Replay} {c : ℕ} {stretch : List ReplayEvent} (hbars : 0 < d.maxBars)
    (h : AtBar d c s) (hon : (marketReplay d).Guarded (OnBars d) s stretch)
    (hstay : (marketReplay d).Guarded (NoJump d) s stretch) (hnodup : d.nodes.Nodup) {node : Text}
    (hnode : node ∈ d.nodes) :
    ∃ k : ℕ, ((marketReplay d).run s stretch).cursor = (c + k : ℕ) ∧
      ((marketReplay d).emitted (fun s event => (onEvent d s event).2) s stretch).flatMap
          (barsFor node) =
        (List.range' c k).filterMap fun i =>
          (d.bars (ReplayData.ticker node))[i % (d.bars (ReplayData.ticker node)).length]?.map
            fun bar => ((i : ℚ), bar) := by
  obtain ⟨k, hshown, hcursor⟩ := emitted_eq hbars h hon hstay
  refine ⟨k, by rw [hcursor, h.cursor_eq, Nat.cast_add], ?_⟩
  rw [TransitionSystem.flatMap_emitted]
  simp only [flatMap_barsFor_onEvent d _ _ hnodup hnode]
  rw [← TransitionSystem.flatMap_emitted, hshown, List.filterMap_eq_flatMap_toList,
    List.range'_eq_map_range, List.flatMap_map, List.flatMap_map]
  refine List.flatMap_congr fun i _ => ?_
  rw [h.cursor_eq, ← Nat.cast_add, barAt_natCast]

/-- Where the condition holds, a replay shows every bar once. -/
theorem showsEachBarOnce_of_guarded (hbars : 0 < d.maxBars)
    (h : (marketReplay d).Guarded (OnBars d) (Replay.init d) events) :
    ShowsEachBarOnce d events := by
  have hsplit {before stretch : List ReplayEvent} (hle : before ++ stretch <+: events) :
      (∃ c, AtBar d c (replayAfter d before)) ∧
        (marketReplay d).Guarded (OnBars d) (replayAfter d before) stretch := by
    obtain ⟨hbefore, hstretch⟩ := TransitionSystem.guarded_append.mp (h.front hle)
    exact ⟨exists_atBar hbars hbefore, hstretch⟩
  constructor
  · intro before hle
    obtain ⟨c, hc⟩ := exists_atBar hbars (h.front hle)
    exact ⟨c, hc.cursor_eq, hc.le⟩
  · intro before stretch hle hstay
    obtain ⟨⟨c, hc⟩, hon⟩ := hsplit hle
    rw [replayAfter_append]
    exact emitted_eq hbars hc hon hstay
  · intro before stretch hle hrun hstay hlt
    obtain ⟨hbar, hon⟩ := hsplit hle
    have hgoing := (hon.and hstay).run_invariant (I := Going d) ⟨hbar, Or.inl hrun⟩
      fun s event hs hguard => hs.step hbars hguard
    rw [← replayAfter_append] at hgoing
    exact hgoing.2.resolve_right fun hend => hlt.ne hend.2
  · intro before stretch hle hrun hstay hticks
    obtain ⟨⟨c, hc⟩, hon⟩ := hsplit hle
    rw [hc.cursor_eq] at hticks
    rw [replayAfter_append]
    -- The bars that are left pay for the ticks.
    refine (hon.and hstay).exhausts (AtEnd d) (fun s => d.maxBars - ⌊s.cursor⌋₊) (· == .tick)
      (I := Going d) ⟨⟨c, hc⟩, Or.inl hrun⟩ (fun s event hs hguard => hs.step hbars hguard)
      (fun s event _ hguard hend => hend.step hguard.2) ?_ ?_
    · rintro s event ⟨⟨c, hc⟩, hgo⟩ hguard
      rcases hgo with hrun | hend
      · refine (hc.run_step hbars hrun hguard.1 hguard.2).imp_right ?_
        rintro ⟨-, c', hc', hle⟩
        have hmax := hc'.le
        simp only [beq_iff_eq, hc.floor_cursor, hc'.floor_cursor]
        omega
      · exact Or.inl (hend.step hguard.2)
    · have hmore : d.maxBars < c + stretch.count .tick := by exact_mod_cast hticks
      rw [hc.floor_cursor, ← List.count_eq_countP]
      exact Nat.sub_lt_left_of_lt_add hc.le hmore

/-- Where a replay shows every bar once, the condition holds. -/
theorem guarded_of_showsEachBarOnce (hbars : 0 < d.maxBars) (h : ShowsEachBarOnce d events) :
    (marketReplay d).Guarded (OnBars d) (Replay.init d) events := by
  refine TransitionSystem.guarded_iff_forall.mpr fun before event hle => ?_
  change OnBars d (replayAfter d before) event
  obtain ⟨c, hcursor, hc⟩ := h.whole before ((List.prefix_append before [event]).trans hle)
  have hat : AtBar d c (replayAfter d before) := ⟨hcursor, hc, one_le_speed_replayAfter before⟩
  cases event with
  | start => trivial
  | stop => trivial
  | seek cursor =>
    obtain ⟨c', hcursor', -⟩ := h.whole _ hle
    rw [replayAfter_append] at hcursor'
    exact (seek_whole_iff hbars cursor).mp ⟨c', hcursor'⟩
  | speed speed => trivial
  | tick =>
    intro hrun hlt
    obtain ⟨k, hshown, hcursor'⟩ := h.consecutive before [.tick] hle ⟨trivial, trivial⟩
    have hprocessed : tickIndices d (replayAfter d before) =
        (List.range k).map fun i : ℕ => (replayAfter d before).cursor + i := by
      rw [← hshown, ← (tick_run hrun hlt).2, TransitionSystem.emitted, TransitionSystem.emitted,
        List.append_nil]
    have hk : turns d (replayAfter d before) = k := by
      simpa [tickIndices, turns] using congrArg List.length hprocessed
    have hstep : (replayAfter d (before ++ [.tick])).cursor =
        Binary64.round ((replayAfter d before).cursor + barsThisTick d (replayAfter d before)) := by
      rw [replayAfter_append, TransitionSystem.run_cons, TransitionSystem.run_nil,
        (tick_run hrun hlt).1]
    have hround := hstep.symm.trans hcursor'
    rw [hcursor, ← Nat.cast_add, ← hk, ← hcursor] at hround
    exact (hat.round_cursor_iff (hat.cursor_lt_iff.mp hlt) hrun).mp hround hrun hlt

end Runs

/-- **A replay shows every bar exactly once if and only if every event leaves the cursor on a
bar.** -/
theorem showsEachBarOnce_iff {d : ReplayData Bar} (hbars : 0 < d.maxBars)
    (events : List ReplayEvent) : ShowsEachBarOnce d events ↔
      (marketReplay d).Guarded (OnBars d) (Replay.init d) events :=
  ⟨guarded_of_showsEachBarOnce hbars, showsEachBarOnce_of_guarded hbars⟩

/-- Three bars, and the node that shows them. -/
def threeBars : ReplayData ℕ where
  nodes := ["node-a".toList]
  tickerBars := [("AAPL".toList, [0, 1, 2])]
  length_lt := by simp

/-- A seek to the second bar, at the speed of a new server. -/
theorem showsEachBarOnce_threeBars :
    ShowsEachBarOnce threeBars [.seek (some (.finite 1)), .start, .tick] := by
  refine (showsEachBarOnce_iff (by decide) _).mpr ⟨?_, trivial, ?_, trivial⟩
  · exact Or.inr (Or.inr (by simp))
  · refine onBars_tick_of_whole (k := 1) ?_
    exact (startReplay_speed _ _).trans Nat.cast_one.symm

/-- At a speed of one and a half, a tick from the first bar ends between two bars. -/
theorem not_onBars_three_halves {s : Replay} (hrun : s.running) (hcursor : s.cursor = 0)
    (hspeed : s.speed = 3 / 2) : ¬ OnBars threeBars s .tick := by
  have hmax : (threeBars.maxBars : ℚ) = 3 := rfl
  have hceil : ⌈(3 / 2 : ℚ)⌉₊ = 2 := (Nat.ceil_eq_iff two_ne_zero).mpr (by norm_num)
  have hlog : Int.log 2 (3 / 2 : ℚ) = 0 := Binary64.log_eq_of_mem (by norm_num) (by norm_num)
  intro hon
  rcases hon hrun (by rw [hcursor, hmax]; norm_num) with hend | hnear
  · norm_num [hspeed, hcursor, hmax] at hend
  · rw [hspeed, hcursor, hceil, zero_add, Binary64.ulp, abs_of_pos (by norm_num), hlog] at hnear
    norm_num at hnear

/-- A position in the middle between two bars, and a speed of one and a half. -/
theorem not_showsEachBarOnce_threeBars :
    ¬ ShowsEachBarOnce threeBars [.seek (some (.finite (1 / 2)))] ∧
      ¬ ShowsEachBarOnce threeBars [.speed (some (.finite (3 / 2))), .start, .tick] := by
  have hbars : 0 < threeBars.maxBars := by decide
  constructor
  · intro h
    have hmax : (threeBars.maxBars : ℚ) = 3 := rfl
    have hfloor : ⌊(1 / 2 : ℚ)⌋₊ = 0 := Nat.floor_eq_zero.mpr (by norm_num)
    have hseek := (guarded_of_showsEachBarOnce hbars h).1
    norm_num [OnBars, hmax, hfloor] at hseek
  · intro h
    have htick := (guarded_of_showsEachBarOnce hbars h).2.2.1
    refine not_onBars_three_halves (startReplay_running _ _ hbars) ?_ ?_ htick
    · simp [marketReplay, onEvent, startReplay_cursor _ _ hbars, Replay.init]
    · norm_num [marketReplay, onEvent, orElse, clamp]

end Bridge

end Convergence
