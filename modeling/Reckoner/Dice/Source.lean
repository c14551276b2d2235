/-!
# Where dice come from

A source turns a state into the value of a die and the next state. The value is
never below one nor above the number of faces, which is part of the type, so what
holds of rolls holds for every source. `Feed` is the family of sources that the
program itself can be given.

A source is its draws and nothing else. The truth value that an object with draws may
have is left out: an evaluation that is given a false one draws from the generator of
the process instead, and then that is the source.
-/

namespace Reckoner

/-- A source of dice with states in `σ`. -/
structure Source (σ : Type) where
  /-- The value of a die with so many faces, and the state after it. -/
  draw : Nat → σ → Nat × σ
  one_le_draw : ∀ faces s, 0 < faces → 1 ≤ (draw faces s).1
  draw_le : ∀ faces s, 0 < faces → (draw faces s).1 ≤ faces

/-- Draws `count` more dice; `drawn` are those before them, the last one first. -/
def Source.drawOnto {σ : Type} (source : Source σ) (faces : Nat) :
    Nat → List Nat → σ → List Nat × σ
  | 0, drawn, s => (drawn.reverse, s)
  | count + 1, drawn, s =>
    let (value, next) := source.draw faces s
    source.drawOnto faces count (value :: drawn) next

/-- The values of `count` dice in the order they were drawn, and the state after. -/
def Source.drawMany {σ : Type} (source : Source σ) (faces count : Nat) (s : σ) : List Nat × σ :=
  source.drawOnto faces count [] s

theorem length_drawOnto {σ : Type} (source : Source σ) (faces count : Nat) (drawn : List Nat)
    (s : σ) : (source.drawOnto faces count drawn s).1.length = drawn.length + count := by
  induction count generalizing drawn s with
  | zero => simp [Source.drawOnto]
  | succ count ih =>
    simp only [Source.drawOnto, ih, List.length_cons]
    omega

theorem length_drawMany {σ : Type} (source : Source σ) (faces count : Nat) (s : σ) :
    (source.drawMany faces count s).1.length = count := by
  simp [Source.drawMany, length_drawOnto]

theorem mem_drawOnto {σ : Type} (source : Source σ) {faces count : Nat} {drawn : List Nat} {s : σ}
    (hf : 0 < faces) (hd : ∀ value ∈ drawn, 1 ≤ value ∧ value ≤ faces) :
    ∀ value ∈ (source.drawOnto faces count drawn s).1, 1 ≤ value ∧ value ≤ faces := by
  induction count generalizing drawn s with
  | zero => simpa [Source.drawOnto] using hd
  | succ count ih =>
    simp only [Source.drawOnto]
    refine ih fun value hv => ?_
    rcases List.mem_cons.mp hv with rfl | hv
    · exact ⟨source.one_le_draw faces s hf, source.draw_le faces s hf⟩
    · exact hd value hv

/-- Every die shows one of its faces. -/
theorem mem_drawMany {σ : Type} (source : Source σ) {faces count : Nat} {s : σ}
    (h : 0 < faces) : ∀ value ∈ (source.drawMany faces count s).1, 1 ≤ value ∧ value ≤ faces :=
  mem_drawOnto source h (by simp)

/-! ## Feeds -/

inductive Feed where
  /-- Every die shows one. -/
  | low
  /-- Every die shows its last face. -/
  | high
  /-- The listed numbers in turn, over and over, wrapped to the faces of the die;
  `next` counts the draws so far. -/
  | cycle (values : List Int) (next : Nat)
  /-- A linear congruential generator on 64-bit words. -/
  | congruential (state : UInt64)
deriving DecidableEq, Repr

namespace Feed

/-- The step of the generator. -/
def nextState (state : UInt64) : UInt64 := state * 6364136223846793005 + 1442695040888963407

/-- How far above one the next die is. -/
def offset (faces : Nat) : Feed → Nat
  | low => 0
  | high => faces - 1
  | cycle values next => (values.getD (next % values.length) 0 % faces).toNat
  | congruential state => (nextState state >>> 33).toNat % faces

def advance : Feed → Feed
  | cycle values next => cycle values (next + 1)
  | congruential state => congruential (nextState state)
  | feed => feed

theorem offset_lt (feed : Feed) {faces : Nat} (h : 0 < faces) : feed.offset faces < faces := by
  cases feed with
  | low => exact h
  | high => simp only [offset]; omega
  | cycle values next =>
    have := Int.emod_lt_of_pos (values.getD (next % values.length) 0) (b := faces) (by omega)
    have := Int.emod_nonneg (values.getD (next % values.length) 0) (b := faces) (by omega)
    simp only [offset]
    omega
  | congruential state => exact Nat.mod_lt _ h

/-- The feeds as a source. -/
def source : Source Feed where
  draw faces feed := (1 + feed.offset faces, feed.advance)
  one_le_draw _ _ _ := Nat.le_add_right 1 _
  draw_le faces feed h := by have := feed.offset_lt h; omega

end Feed

end Reckoner
