import NyonOS.Data.RingBuffer

namespace NyonOS.Crypto

open Data Function List

/-! The random stream. -/

abbrev Word := BitVec 32

abbrev Byte := BitVec 8

/-- `chacha_ctx`. -/
structure ChachaCtx where
  state : Nat → Word
  keystream : Nat → Word
  counter : Word
  produced : Nat

def rotl32 (v : Word) (n : Nat) : Word := v <<< n ||| v >>> (32 - n)

def load32Le (p : Nat → Byte) (at_ : Nat) : Word :=
  (p at_).setWidth 32 ||| (p (at_ + 1)).setWidth 32 <<< 8 ||| (p (at_ + 2)).setWidth 32 <<< 16 ||| (p (at_ + 3)).setWidth 32 <<< 24

def quarterRound (s : Nat → Word) (a b c d : Nat) : Nat → Word :=
  let s := update s a (s a + s b)
  let s := update s d (rotl32 (s d ^^^ s a) 16)
  let s := update s c (s c + s d)
  let s := update s b (rotl32 (s b ^^^ s c) 12)
  let s := update s a (s a + s b)
  let s := update s d (rotl32 (s d ^^^ s a) 8)
  let s := update s c (s c + s d)
  update s b (rotl32 (s b ^^^ s c) 7)

/-- The body of the loop of `chacha_block`. -/
def twoRounds (x : Nat → Word) : Nat → Word :=
  let x := quarterRound x 0 4 8 12
  let x := quarterRound x 1 5 9 13
  let x := quarterRound x 2 6 10 14
  let x := quarterRound x 3 7 11 15
  let x := quarterRound x 0 5 10 15
  let x := quarterRound x 1 6 11 12
  let x := quarterRound x 2 7 8 13
  quarterRound x 3 4 9 14

def chachaBlock (c : ChachaCtx) : ChachaCtx :=
  { c with keystream := fun i => twoRounds^[10] c.state i + c.state i }

/-- What `chacha_init` stores in the state. -/
def initialWords (seed : Nat → Byte) (counter : BitVec 64) : Nat → Word
  | 0 => 0x61707865
  | 1 => 0x3320646e
  | 2 => 0x79622d32
  | 3 => 0x6b206574
  | 12 => counter.setWidth 32
  | 13 => (counter >>> 32).setWidth 32
  | 14 => 0
  | 15 => 0
  | i => load32Le seed ((i - 4) * 4)

def chachaInit (c : ChachaCtx) (seed : Nat → Byte) (counter : BitVec 64) : ChachaCtx :=
  { c with state := initialWords seed counter, counter := counter.setWidth 32, produced := 64 }

def chachaRefill (c : ChachaCtx) : ChachaCtx :=
  let n := (c.counter.setWidth 64 + 1) &&& 0xFFFFFFFFFFFF#64
  let state := update (update c.state 12 (n.setWidth 32)) 13 ((n >>> 32).setWidth 32)
  { chachaBlock { c with state } with counter := n.setWidth 32, produced := 0 }

section

variable (words : Nat → Word)

/-- Byte `i` of a block of words. -/
def blockByte (i : Nat) : Byte := (words (i / 4) >>> (8 * (i % 4))).setWidth 8

/-- The loop of `chacha_bytes`; a round takes at least one byte. -/
def chachaLoop : (fuel : Nat) → ChachaCtx → (len : Nat) → List Byte × ChachaCtx
  | 0, c, _ => ([], c)
  | fuel + 1, c, len =>
    if len = 0 then ([], c)
    else
      let c := if 64 ≤ c.produced then chachaRefill c else c
      let take := min (64 - c.produced) len
      let rest := chachaLoop fuel { c with produced := c.produced + take } (len - take)
      (slice (blockByte c.keystream) c.produced take ++ rest.1, rest.2)

def chachaBytes (c : ChachaCtx) (len : Nat) : List Byte × ChachaCtx := chachaLoop len c len

/-- The results of one request after the other. -/
def requests : List Nat → ChachaCtx → List (List Byte)
  | [], _ => []
  | len :: lens, c => (chachaBytes c len).1 :: requests lens (chachaBytes c len).2

/-! ChaCha20: a state of four rows, columns and diagonals in turn. -/

def quarter (a b c d : Word) : Word × Word × Word × Word :=
  let a := a + b; let d := (d ^^^ a).rotateLeft 16
  let c := c + d; let b := (b ^^^ c).rotateLeft 12
  let a := a + b; let d := (d ^^^ a).rotateLeft 8
  let c := c + d; let b := (b ^^^ c).rotateLeft 7
  (a, b, c, d)

abbrev Matrix := Fin 4 → Fin 4 → Word

/-- The quarter round on the columns, of which row `r` is shifted by `shift r`. -/
def columns (shift : Fin 4 → Fin 4) (x : Matrix) : Matrix := fun r j =>
  let q := fun k => quarter (x 0 (k + shift 0)) (x 1 (k + shift 1)) (x 2 (k + shift 2)) (x 3 (k + shift 3))
  match r with
  | 0 => (q (j - shift 0)).1
  | 1 => (q (j - shift 1)).2.1
  | 2 => (q (j - shift 2)).2.2.1
  | 3 => (q (j - shift 3)).2.2.2

def doubleRound (x : Matrix) : Matrix := columns id (columns (fun _ => 0) x)

def rows : Matrix := fun r j => words (4 * r + j)

/-- The block of a state of 16 words. -/
def chacha20 (i : Fin 16) : Word :=
  doubleRound^[10] (rows words) ⟨i / 4, by omega⟩ ⟨i % 4, by omega⟩ + words i

end

section Rounds

theorem rotl32_eq (v : Word) {n : Nat} (small : n < 32) : rotl32 v n = v.rotateLeft n := by
  rw [BitVec.rotateLeft_def, Nat.mod_eq_of_lt small]
  rfl

theorem quarterRound_apply (s : Nat → Word) {a b c d : Nat} (ab : a ≠ b) (ac : a ≠ c) (ad : a ≠ d) (bc : b ≠ c) (bd : b ≠ d)
    (cd : c ≠ d) (i : Nat) : quarterRound s a b c d i =
      if i = a then (quarter (s a) (s b) (s c) (s d)).1 else if i = b then (quarter (s a) (s b) (s c) (s d)).2.1
      else if i = c then (quarter (s a) (s b) (s c) (s d)).2.2.1 else if i = d then (quarter (s a) (s b) (s c) (s d)).2.2.2 else s i := by
  simp only [quarterRound, quarter, ← rotl32_eq _ (show 16 < 32 by decide), ← rotl32_eq _ (show 12 < 32 by decide),
    ← rotl32_eq _ (show 8 < 32 by decide), ← rotl32_eq _ (show 7 < 32 by decide)]
  simp only [update_apply, ab, ac, ad, bc, bd, cd, ab.symm, ac.symm, ad.symm, bc.symm, bd.symm, cd.symm, if_true, if_false]
  split_ifs <;> simp_all

theorem rows_twoRounds (x : Nat → Word) : rows (twoRounds x) = doubleRound (rows x) := by
  funext r j
  fin_cases r <;> fin_cases j <;> simp [rows, twoRounds, doubleRound, columns, quarterRound_apply] <;> rfl

theorem chachaBlock_keystream (c : ChachaCtx) (i : Fin 16) : (chachaBlock c).keystream i = chacha20 c.state i := by
  have same : rows (twoRounds^[10] c.state) = doubleRound^[10] (rows c.state) :=
    (Function.Semiconj.iterate_right rows_twoRounds 10) c.state
  rw [chacha20, ← same]
  change twoRounds^[10] c.state i + c.state i = twoRounds^[10] c.state (4 * (i / 4) + i % 4) + c.state i
  rw [Nat.div_add_mod]

end Rounds

section Stream

variable (junk : ChachaCtx) (seed : Nat → Byte) (start : BitVec 64)

/-- The context after some refills. -/
def refills (i : Nat) : ChachaCtx := chachaRefill^[i] (chachaInit junk seed start)

/-- The counter that the block of a context is made with. -/
def usedCounter (c : ChachaCtx) : BitVec 64 := c.state 13 ++ c.state 12

/-- Byte `j` of the blocks of ChaCha20 with the counters of the refills. -/
def streamByte (j : Nat) : Byte :=
  blockByte (fun i => chacha20 (initialWords seed (usedCounter (refills junk seed start (j / 64 + 1)))) (Fin.ofNat 16 i)) (j % 64)

variable {junk seed start}

theorem refills_succ (i : Nat) : refills junk seed start (i + 1) = chachaRefill (refills junk seed start i) :=
  Function.iterate_succ_apply' ..

theorem initialWords_update (a n : BitVec 64) :
    update (update (initialWords seed a) 12 (n.setWidth 32)) 13 ((n >>> 32).setWidth 32) = initialWords seed n := by
  funext k
  by_cases high : k = 13
  · subst high
    exact update_self ..
  by_cases low : k = 12
  · subst low
    rw [update_of_ne high, update_self]
    rfl
  rw [update_of_ne high, update_of_ne low]
  unfold initialWords
  split <;> first | rfl | contradiction

theorem append_halves (n : BitVec 64) : ((n >>> 32).setWidth 32 ++ n.setWidth 32 : BitVec 64) = n := by
  ext i inside
  rw [BitVec.getElem_append]
  split <;> rename_i half
  · simp only [BitVec.getElem_setWidth]
    exact BitVec.getLsbD_eq_getElem inside
  · simp only [BitVec.getElem_setWidth, BitVec.getLsbD_ushiftRight]
    rw [show 32 + (i - 32) = i by omega]
    exact BitVec.getLsbD_eq_getElem inside

theorem usedCounter_refill (c : ChachaCtx) : usedCounter (chachaRefill c) = (c.counter.setWidth 64 + 1) &&& 0xFFFFFFFFFFFF#64 := by
  simp only [usedCounter, chachaRefill, chachaBlock, update_self]
  rw [update_of_ne (by decide : (12 : Nat) ≠ 13), update_self, append_halves]

theorem refill_counter (c : ChachaCtx) : (usedCounter (chachaRefill c)).toNat = c.counter.toNat + 1 ∧
    (chachaRefill c).counter.toNat = (c.counter.toNat + 1) % 2 ^ 32 := by
  have small := c.counter.isLt
  have exact_ : ((c.counter.setWidth 64 + 1) &&& 0xFFFFFFFFFFFF#64).toNat = c.counter.toNat + 1 := by
    rw [BitVec.toNat_and, BitVec.toNat_add, BitVec.toNat_setWidth, show (0xFFFFFFFFFFFF#64).toNat = 2 ^ 48 - 1 by decide,
      Nat.and_two_pow_sub_one_eq_mod, show BitVec.toNat (1 : BitVec 64) = 1 by decide]
    omega
  rw [usedCounter_refill]
  refine ⟨exact_, ?_⟩
  change (((c.counter.setWidth 64 + 1) &&& 0xFFFFFFFFFFFF#64).setWidth 32).toNat = _
  rw [BitVec.toNat_setWidth, exact_]

theorem refills_counter (i : Nat) : (refills junk seed start i).counter.toNat = (start.toNat + i) % 2 ^ 32 := by
  induction i with
  | zero => exact BitVec.toNat_setWidth ..
  | succ i ih =>
    rw [refills_succ, (refill_counter _).2, ih]
    omega

variable {c : ChachaCtx}

theorem refill_state {a : BitVec 64} (state : c.state = initialWords seed a) :
    (chachaRefill c).state = initialWords seed (usedCounter (chachaRefill c)) := by
  rw [usedCounter_refill, ← initialWords_update a, ← state]
  rfl

theorem refills_state (i : Nat) : ∃ a, (refills junk seed start i).state = initialWords seed a := by
  induction i with
  | zero => exact ⟨start, rfl⟩
  | succ i ih =>
    obtain ⟨a, state⟩ := ih
    rw [refills_succ]
    exact ⟨_, refill_state state⟩

theorem blockByte_refills (i : Nat) {k : Nat} (inside : k < 64) :
    blockByte (refills junk seed start (i + 1)).keystream k = streamByte junk seed start (64 * i + k) := by
  obtain ⟨a, state⟩ := @refills_state junk seed start i
  have words : (refills junk seed start (i + 1)).state = initialWords seed (usedCounter (refills junk seed start (i + 1))) := by
    rw [refills_succ]
    exact refill_state state
  have whole : (Fin.ofNat 16 (k / 4) : Nat) = k / 4 := Nat.mod_eq_of_lt (by omega)
  have keystream : (refills junk seed start (i + 1)).keystream (k / 4) =
      chacha20 (refills junk seed start (i + 1)).state (Fin.ofNat 16 (k / 4)) := by
    conv_lhs => rw [← whole, refills_succ]
    rw [refills_succ]
    exact chachaBlock_keystream _ _
  rw [streamByte, show (64 * i + k) / 64 = i by omega, show (64 * i + k) % 64 = k by omega, blockByte, blockByte, keystream, words]

variable (junk seed start) in
def Produced (c : ChachaCtx) (p : Nat) : Prop :=
  ∃ i, c = { refills junk seed start i with produced := c.produced } ∧ c.produced ≤ 64 ∧ 64 * i + c.produced = p + 64

theorem Produced.refilled {p : Nat} (made : Produced junk seed start c p) :
    Produced junk seed start (if 64 ≤ c.produced then chachaRefill c else c) p ∧ (if 64 ≤ c.produced then chachaRefill c else c).produced < 64 := by
  by_cases used : 64 ≤ c.produced
  · rw [if_pos used]
    obtain ⟨i, same, most, total⟩ := made
    refine ⟨⟨i + 1, ?_, Nat.zero_le 64, ?_⟩, (by decide : 0 < 64)⟩
    · rw [refills_succ, same]
      rfl
    · change 64 * (i + 1) + 0 = p + 64
      omega
  · rw [if_neg used]
    exact ⟨made, Nat.not_le.mp used⟩

theorem Produced.take {p n : Nat} (made : Produced junk seed start c p) (more : c.produced < 64) (most : n ≤ 64 - c.produced) :
    slice (blockByte c.keystream) c.produced n = slice (streamByte junk seed start) p n ∧
      Produced junk seed start { c with produced := c.produced + n } (p + n) := by
  obtain ⟨i, same, -, total⟩ := made
  cases i with
  | zero => omega
  | succ i =>
    have keystream : c.keystream = (refills junk seed start (i + 1)).keystream := by rw [same]
    refine ⟨map_congr_left fun k member => ?_, i + 1, by rw [same], ?_, ?_⟩
    · have bound := mem_range.mp member
      rw [keystream, blockByte_refills i (by omega)]
      congr 1
      omega
    · dsimp only
      omega
    · dsimp only
      omega

theorem chachaLoop_produced {fuel : Nat} {p len : Nat} (made : Produced junk seed start c p) (enough : len ≤ fuel) :
    (chachaLoop fuel c len).1 = slice (streamByte junk seed start) p len ∧ Produced junk seed start (chachaLoop fuel c len).2 (p + len) := by
  induction fuel generalizing c p len with
  | zero =>
    cases Nat.le_zero.mp enough
    exact ⟨rfl, made⟩
  | succ fuel ih =>
    rw [chachaLoop]
    by_cases none_ : len = 0
    · subst none_
      exact ⟨rfl, made⟩
    · rw [if_neg none_]
      obtain ⟨made, more⟩ := made.refilled
      generalize (if 64 ≤ c.produced then chachaRefill c else c) = c at made more
      dsimp only
      obtain ⟨same, made⟩ := made.take more (Nat.min_le_left _ len)
      have rest := ih made (show len - min (64 - c.produced) len ≤ fuel by omega)
      rw [rest.1, same, ← slice_add, Nat.add_sub_cancel' (Nat.min_le_right ..)]
      refine ⟨rfl, ?_⟩
      have := rest.2
      rwa [Nat.add_assoc, Nat.add_sub_cancel' (Nat.min_le_right ..)] at this

theorem requests_produced {lens : List Nat} {p : Nat} (made : Produced junk seed start c p) :
    (requests lens c).flatten = slice (streamByte junk seed start) p lens.sum := by
  induction lens generalizing c p with
  | nil => rfl
  | cons len lens ih =>
    obtain ⟨first, made⟩ := chachaLoop_produced made (Nat.le_refl len)
    rw [requests, flatten_cons, chachaBytes, ih made, first, sum_cons, slice_add]

end Stream

/-- The counters of the first `n` blocks follow the starting counter, in the 48 bits that the code computes them in, and none of them
is used twice within 2 ^ 48 blocks. -/
def CountsUp (junk : ChachaCtx) (seed : Nat → Byte) (start : BitVec 64) (n : Nat) : Prop :=
  (∀ i < n, (usedCounter (refills junk seed start (i + 1))).toNat = (start.toNat + 1 + i) % 2 ^ 48) ∧
    ∀ i j, i < j → j < n → j - i < 2 ^ 48 → usedCounter (refills junk seed start (i + 1)) ≠ usedCounter (refills junk seed start (j + 1))

/-- Requests yield the blocks of ChaCha20, however they are split; the counters of the blocks count up as long as they fit in 32 bits. -/
theorem chacha_stream_iff (junk : ChachaCtx) (seed : Nat → Byte) (start : BitVec 64) (lens : List Nat) (n : Nat) :
    (requests lens (chachaInit junk seed start)).flatten = slice (streamByte junk seed start) 0 lens.sum ∧
      (CountsUp junk seed start n ↔ n = 0 ∨ start.toNat % 2 ^ 48 + n ≤ 2 ^ 32) := by
  have used : ∀ i, (usedCounter (refills junk seed start (i + 1))).toNat = (start.toNat + i) % 2 ^ 32 + 1 := fun i => by
    rw [refills_succ, (refill_counter _).1, refills_counter]
  refine ⟨requests_produced ⟨0, rfl, Nat.le_refl 64, rfl⟩, fun counts => ?_, fun fits => ⟨fun i inside => ?_, fun i j before inside _ same => ?_⟩⟩
  · by_contra wrong
    have wide : n ≠ 0 ∧ 2 ^ 32 < start.toNat % 2 ^ 48 + n := by omega
    -- the first counter that does not fit
    have differs := counts.1 (2 ^ 32 - start.toNat % 2 ^ 48) (by omega)
    rw [used] at differs
    omega
  · rw [used]
    omega
  · have := congrArg BitVec.toNat same
    rw [used, used] at this
    omega

def blank : ChachaCtx := ⟨fun _ => 0, fun _ => 0, 0, 0⟩

/-- The first block is made again after 2 ^ 32 blocks, and the upper half of a starting counter is not used. -/
theorem counter_repeats :
    usedCounter (refills blank (fun _ => 0#8) 0#64 (2 ^ 32 + 1)) = usedCounter (refills blank (fun _ => 0#8) 0#64 (0 + 1)) ∧
      (usedCounter (refills blank (fun _ => 0#8) (BitVec.ofNat 64 (2 ^ 32)) (0 + 1))).toNat = 1 := by
  refine ⟨BitVec.eq_of_toNat_eq ?_, ?_⟩
  · rw [refills_succ, refills_succ, (refill_counter _).1, (refill_counter _).1, refills_counter, refills_counter]
    rfl
  · rw [refills_succ, (refill_counter _).1, refills_counter]
    rfl

end NyonOS.Crypto
