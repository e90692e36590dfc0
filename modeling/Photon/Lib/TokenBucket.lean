import Mathlib.Tactic

/-!
A token bucket that credits whole intervals and restarts its clock at every
credit. The results are about the grants inside a time window, for any
interleaving of refills and takes, and about what restarting the clock loses.
-/

namespace Photon.Lib

structure Bucket where
  tokens : Int
  last : Int
deriving DecidableEq

namespace Bucket

/-- Credit the whole intervals since `last`, up to `capacity`. -/
def refill (capacity interval now : Int) (b : Bucket) : Bucket :=
  if interval ≤ now - b.last then ⟨min capacity (b.tokens + (now - b.last) / interval), now⟩
  else b

def take (b : Bucket) : Bucket × Bool :=
  if 0 < b.tokens then (⟨b.tokens - 1, b.last⟩, true) else (b, false)

def request (capacity interval now : Int) (b : Bucket) : Bucket × Bool :=
  (b.refill capacity interval now).take

variable {capacity interval now start length granted : Int} {b : Bucket}

theorem refill_of_due (hdue : interval ≤ now - b.last) :
    b.refill capacity interval now =
      ⟨min capacity (b.tokens + (now - b.last) / interval), now⟩ :=
  if_pos hdue

theorem refill_of_early (hearly : now - b.last < interval) :
    b.refill capacity interval now = b :=
  if_neg (not_le.mpr hearly)

@[simp]
theorem take_last : b.take.1.last = b.last := by
  unfold take
  split <;> rfl

/-- A token that is handed out leaves the bucket. -/
theorem take_tokens : b.take.1.tokens + (if b.take.2 then 1 else 0) = b.tokens := by
  unfold take
  split <;> simp

theorem take_granted : b.take.2 = true ↔ 0 < b.tokens := by
  unfold take
  split <;> simp_all

/-- The bucket holds at most `capacity` tokens and its clock is not ahead. -/
structure Sound (capacity now : Int) (b : Bucket) : Prop where
  nonneg : 0 ≤ b.tokens
  tokens_le : b.tokens ≤ capacity
  last_le : b.last ≤ now

theorem Sound.later {later : Int} (h : b.Sound capacity now) (hle : now ≤ later) :
    b.Sound capacity later :=
  ⟨h.nonneg, h.tokens_le, h.last_le.trans hle⟩

theorem Sound.refill (h : b.Sound capacity now) (hinterval : 0 < interval) :
    (b.refill capacity interval now).Sound capacity now := by
  rcases lt_or_ge (now - b.last) interval with hearly | hdue
  · rwa [refill_of_early hearly]
  · rw [refill_of_due hdue]
    have hcredit : 0 ≤ (now - b.last) / interval :=
      Int.ediv_nonneg (by omega) hinterval.le
    have htokens := h.nonneg
    have hcapacity := h.tokens_le
    exact ⟨by dsimp only; omega, min_le_left _ _, le_refl now⟩

theorem Sound.take (h : b.Sound capacity now) : b.take.1.Sound capacity now := by
  have hbound := h.tokens_le
  refine ⟨?_, ?_, by rw [take_last]; exact h.last_le⟩
  · rcases hgrant : b.take.2 with _ | _
    · have hsum := b.take_tokens
      have := h.nonneg
      simp only [hgrant, Bool.false_eq_true, if_false] at hsum
      omega
    · have hsum := b.take_tokens
      have := take_granted.mp hgrant
      omega
  · have hsum := b.take_tokens
    split at hsum <;> omega

theorem Sound.request (h : b.Sound capacity now) (hinterval : 0 < interval) :
    (b.request capacity interval now).1.Sound capacity now :=
  (h.refill hinterval).take

/-- Splitting a span can only lose whole intervals. -/
theorem ediv_add_ediv_le (hinterval : 0 < interval) (x y : Int) :
    x / interval + y / interval ≤ (x + y) / interval := by
  rw [Int.le_ediv_iff_mul_le hinterval, add_mul]
  exact add_le_add (Int.ediv_mul_le x hinterval.ne') (Int.ediv_mul_le y hinterval.ne')

/-- Splitting a span loses nothing exactly when the two remainders do not add up
to another interval. -/
theorem ediv_add_ediv_eq_iff (hinterval : 0 < interval) (x y : Int) :
    x / interval + y / interval = (x + y) / interval ↔
      x % interval + y % interval < interval := by
  have hx := Int.emod_add_mul_ediv x interval
  have hy := Int.emod_add_mul_ediv y interval
  have hsum : x + y = (x % interval + y % interval) +
      interval * (x / interval + y / interval) := by linarith
  have hdiv : (x + y) / interval =
      (x % interval + y % interval) / interval + (x / interval + y / interval) := by
    rw [hsum, Int.add_mul_ediv_left _ _ hinterval.ne']
  have hnonneg : 0 ≤ x % interval + y % interval :=
    add_nonneg (Int.emod_nonneg x hinterval.ne') (Int.emod_nonneg y hinterval.ne')
  rw [hdiv, right_eq_add]
  constructor
  · intro hzero
    have hlt : (x % interval + y % interval) / interval < 1 := by omega
    simpa using (Int.ediv_lt_iff_lt_mul hinterval).mp hlt
  · exact Int.ediv_eq_zero_of_lt hnonneg

/-- The account of a window that opened at `start`: until the first refill in it
the grants and the tokens left are what the window found, and a grant in it means
that the refill clock is less than an interval behind. From the first refill on
one more token per interval since `start` may be there, and one for the interval
that was running when the window opened. -/
structure Window (capacity interval start granted : Int) (b : Bucket) : Prop where
  early : b.last < start →
    granted + b.tokens ≤ capacity ∧ (granted = 0 ∨ start < b.last + interval)
  late : start ≤ b.last →
    granted + b.tokens ≤ capacity + 1 + (b.last - start) / interval

/-- Nothing is granted before the window opens. -/
theorem Window.before (hsound : b.Sound capacity now) (hnow : now < start) :
    b.Window capacity interval start 0 where
  early _ := ⟨by have := hsound.tokens_le; omega, .inl rfl⟩
  late hlate := absurd (hlate.trans hsound.last_le) (not_le.mpr hnow)

/-- A grant its caller never heard of does not count. -/
theorem Window.fewer {fewer : Int} (h : b.Window capacity interval start granted)
    (hnonneg : 0 ≤ fewer) (hle : fewer ≤ granted) : b.Window capacity interval start fewer where
  early hlast := by
    obtain ⟨hbound, hclock⟩ := h.early hlast
    exact ⟨by omega, hclock.imp_left (by omega)⟩
  late hlast := by
    have := h.late hlast
    omega

/-- A full bucket that starts inside the window. -/
theorem Window.full (hinterval : 0 < interval) (hstart : start ≤ now) :
    (⟨capacity, now⟩ : Bucket).Window capacity interval start 0 where
  early hlast := absurd hstart (not_le.mpr hlast)
  late _ := by
    have : 0 ≤ (now - start) / interval := Int.ediv_nonneg (by omega) hinterval.le
    dsimp only
    omega

/-- A refill inside the window keeps its account. -/
theorem Window.refill (h : b.Window capacity interval start granted)
    (hinterval : 0 < interval) (hstart : start ≤ now) :
    (b.refill capacity interval now).Window capacity interval start granted := by
  rcases lt_or_ge (now - b.last) interval with hearly | hdue
  · rwa [refill_of_early hearly]
  · rw [refill_of_due hdue]
    refine ⟨fun hlast => absurd hstart (not_le.mpr hlast), fun _ => ?_⟩
    have hspan : 0 ≤ (now - start) / interval := Int.ediv_nonneg (by omega) hinterval.le
    have hcap := min_le_left capacity (b.tokens + (now - b.last) / interval)
    have hcredit := min_le_right capacity (b.tokens + (now - b.last) / interval)
    dsimp only
    rcases lt_or_ge b.last start with hlast | hlast
    · obtain ⟨hbound, hzero | hclock⟩ := h.early hlast
      · omega
      · -- the running interval began before the window and counts once more
        have hone : (now - b.last) / interval ≤ (now - start) / interval + 1 := by
          rw [← Int.add_mul_ediv_left _ 1 hinterval.ne', mul_one]
          exact Int.ediv_le_ediv hinterval (by omega)
        omega
    · have hsplit := ediv_add_ediv_le hinterval (b.last - start) (now - b.last)
      rw [show b.last - start + (now - b.last) = now - start by omega] at hsplit
      have := h.late hlast
      omega

/-- After a refill inside the window its clock is less than an interval behind. -/
theorem refill_last_near (hinterval : 0 < interval) (hstart : start ≤ now) :
    start < (b.refill capacity interval now).last + interval := by
  rcases lt_or_ge (now - b.last) interval with hearly | hdue
  · rw [refill_of_early hearly]
    omega
  · rw [refill_of_due hdue]
    dsimp only
    omega

/-- A request inside the window keeps its account. -/
theorem Window.request (h : b.Window capacity interval start granted)
    (hinterval : 0 < interval) (hstart : start ≤ now) :
    (b.request capacity interval now).1.Window capacity interval start
      (granted + if (b.request capacity interval now).2 then 1 else 0) := by
  have hrefilled := h.refill hinterval hstart
  have hnear : start < (b.refill capacity interval now).last + interval :=
    refill_last_near hinterval hstart
  have hsum := (b.refill capacity interval now).take_tokens
  unfold Bucket.request
  refine ⟨fun hlast => ?_, fun hlast => ?_⟩
  · rw [take_last] at hlast ⊢
    have := (hrefilled.early hlast).1
    exact ⟨by omega, .inr hnear⟩
  · rw [take_last] at hlast ⊢
    have := hrefilled.late hlast
    omega

/-- The account bounds the grants of a window of the given length. -/
theorem Window.granted_le (h : b.Window capacity interval start granted)
    (hinterval : 0 < interval) (hlength : 0 ≤ length) (hsound : b.Sound capacity now)
    (hnow : now ≤ start + length) : granted ≤ capacity + length / interval + 1 := by
  have htokens := hsound.nonneg
  have hlast := hsound.last_le
  have hspan : 0 ≤ length / interval := Int.ediv_nonneg hlength hinterval.le
  rcases lt_or_ge b.last start with hbefore | hafter
  · have := (h.early hbefore).1
    omega
  · have hmono : (b.last - start) / interval ≤ length / interval :=
      Int.ediv_le_ediv hinterval (by omega)
    have := h.late hafter
    omega

/-- Starting over with a full bucket answers like the old one if the credit would
have filled it. -/
theorem request_full (hinterval : 0 < interval) (hdue : interval ≤ now - b.last)
    (hfull : capacity ≤ b.tokens + (now - b.last) / interval) :
    (⟨capacity, now⟩ : Bucket).request capacity interval now =
      b.request capacity interval now := by
  unfold request
  rw [refill_of_due hdue, min_eq_left hfull, refill_of_early (by dsimp only; omega)]

/-- A refill that is not cut at the capacity credits the whole intervals since
`last`, none of them if it does nothing. -/
theorem refill_tokens_of_room (hlast : b.last ≤ now)
    (hroom : b.tokens + (now - b.last) / interval < capacity) :
    (b.refill capacity interval now).tokens = b.tokens + (now - b.last) / interval := by
  rcases lt_or_ge (now - b.last) interval with hearly | hdue
  · rw [refill_of_early hearly, Int.ediv_eq_zero_of_lt (by omega) hearly, add_zero]
  · rw [refill_of_due hdue]
    exact min_eq_right hroom.le

end Bucket

end Photon.Lib
