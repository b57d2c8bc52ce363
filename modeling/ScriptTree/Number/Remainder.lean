namespace ScriptTree.Number

/-- The bits of a number without its sign. -/
def magnitude (x : Float) : Nat := x.toBits.toNat % 1 <<< 63

/-- The magnitude of infinity; those above it are no numbers. -/
def infinite : Nat := 2047 <<< 52

/-- How often the least positive number, 2 ^ (-1074), is contained in a finite one of magnitude `b`. -/
def units (b : Nat) : Nat :=
  if b < 1 <<< 52 then b else (b % 1 <<< 52 + 1 <<< 52) <<< (b / 1 <<< 52 - 1)

/-- The magnitude of a multiple of the least positive number that is exact in 53 binary digits. -/
def ofUnits (n : Nat) : Nat :=
  if n < 1 <<< 53 then n else (n.log2 - 52) <<< 52 + n >>> (n.log2 - 52)

theorem log2_shiftLeft {n s : Nat} (h : 1 <<< 52 ≤ n) (h' : n < 1 <<< 53) :
    (n <<< s).log2 = s + 52 := by
  have hp : 0 < 2 ^ s := Nat.two_pow_pos s
  rw [Nat.shiftLeft_eq, Nat.log2_eq_iff (Nat.ne_of_gt (Nat.mul_pos (by omega) hp)),
    Nat.add_assoc s, Nat.pow_add 2 s 52, Nat.pow_add 2 s 53, Nat.mul_comm n]
  exact ⟨Nat.mul_le_mul_left _ h, Nat.mul_lt_mul_of_pos_left h' hp⟩

theorem ofUnits_units (b : Nat) : ofUnits (units b) = b := by
  unfold units
  split
  · unfold ofUnits
    rw [if_pos (by omega)]
  · have hb := Nat.div_add_mod b (1 <<< 52)
    have hm : b % 1 <<< 52 < 1 <<< 52 := Nat.mod_lt _ (by decide)
    generalize hs : b / 1 <<< 52 - 1 = s
    generalize b % 1 <<< 52 = m at *
    unfold ofUnits
    rw [log2_shiftLeft (by omega) (by omega), Nat.add_sub_cancel, Nat.shiftLeft_shiftRight,
      Nat.shiftLeft_eq _ s]
    split
    · rename_i hlt
      cases s with
      | zero => omega
      | succ s =>
        have := Nat.mul_le_mul_left (m + 1 <<< 52)
          (Nat.pow_le_pow_right (by decide : 0 < 2) (Nat.le_add_left 1 s))
        omega
    · omega

/-- What is left of `x` after taking `y` away as often as it fits, which is exact; the sign is that of
`x`, also for zero. -/
def remainder (x y : Float) : Float :=
  let a := magnitude x
  let b := magnitude y
  if infinite ≤ a ∨ infinite < b ∨ b = 0 then 0.0 / 0.0
  else if b = infinite then x
  else .ofBits (.ofNat (x.toBits.toNat >>> 63 <<< 63 + ofUnits (units a % units b)))

end ScriptTree.Number
