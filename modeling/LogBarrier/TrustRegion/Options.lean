import LogBarrier.Scalar

/-!
# Options of the trust region method

The constants that decide how large a step may be and when it is accepted.
-/

namespace LogBarrier

/-- The options of the trust region method. -/
structure TrustRegionOptions (α : Type) [Scalar α] where
  /-- The part of the predicted reduction that the penalty is to secure for the constraints. -/
  penaltyShare : α := 0.3
  /-- The ratio from which on the radius is enlarged by `excellentGrowth`. -/
  excellentRatio : α := 0.9
  /-- The ratio from which on the radius is enlarged by `goodGrowth`. -/
  goodRatio : α := 0.3
  /-- The ratio from which on a step is accepted. -/
  acceptableRatio : α := 1e-8
  /-- The radius after a very good step, in units of the step. -/
  excellentGrowth : α := 7.0
  /-- The radius after a good step, in units of the step. -/
  goodGrowth : α := 2.0
  /-- The factor of the mildest reduction of the radius. -/
  mildShrink : α := 0.5
  /-- The factor of the harshest reduction of the radius. -/
  harshShrink : α := 0.1
  /-- The part of the radius that is left to the normal step. -/
  normalRadiusShare : α := 0.8
  /-- The part of the bounds that is left to the normal step. -/
  normalBoundsShare : α := 0.5
  /-- The radius below which the search ends. -/
  minRadius : α := 1e-8

end LogBarrier
