import Mathlib.Algebra.Order.Ring.Nat

/-!
# The one-time code of an invite

`invite/code.rs`: a code is twelve symbols of Crockford's alphabet, held as the number they
spell. The parser looks a character up by its low byte, so that a character of another script
is taken for the symbol with that byte.
-/

namespace WealdRelay.Invite.Codes

open List

/-- `ALPHABET`, in value order: no `I`, `L`, `O` or `U`. -/
def alphabet : List Char := "0123456789ABCDEFGHJKMNPQRSTVWXYZ".toList

def codeSymbols : Nat := 12

def groupSymbols : Nat := 4

/-- Why a code could not be read. -/
inductive CodeError where
  | wrongLength (symbols : Nat)
  | notASymbol (character : Char)
deriving DecidableEq

/-- A code: the number of its twelve symbols. -/
structure Code where
  bits : Nat
  small : bits < 32 ^ codeSymbols
deriving DecidableEq

/-- The characters `parse` passes over. -/
def separator (character : Char) : Bool := character = '-' ∨ character = ' '

/-- Upper case, with the letters that are read as digits. -/
def upper (character : Char) : Char :=
  match character.toUpper with
  | 'I' | 'L' => '1'
  | 'O' => '0'
  | other => other

/-- Where the low byte of a character stands in the alphabet. -/
def position (character : Char) : Option (Fin 32) :=
  alphabet.findFinIdx? (fun symbol => symbol.toNat = character.toNat % 256)

/-- `normalise`. -/
def normalise (character : Char) : Except CodeError (Fin 32) :=
  match position (upper character) with
  | some index => .ok index
  | none => .error (.notASymbol character)

/-- One more symbol at the end. -/
def push (value : Nat) (symbol : Fin 32) : Nat := value <<< 5 ||| symbol

theorem push_eq (value : Nat) (symbol : Fin 32) : push value symbol = value * 32 + symbol := by
  rw [push, ← Nat.shiftLeft_add_eq_or_of_lt symbol.isLt, Nat.shiftLeft_eq]

theorem push_lt {value symbols : Nat} (h : value < 32 ^ symbols) (symbol : Fin 32) :
    push value symbol < 32 ^ (symbols + 1) := by
  rw [push_eq, Nat.pow_succ]
  omega

/-- The loop of `parse`. Twelve symbols are sixty bits, so no shift loses one. -/
def parseFrom (value symbols : Nat) (h : value < 32 ^ symbols) :
    List Char → Except CodeError Code
  | [] =>
    if hlen : symbols = codeSymbols then .ok ⟨value, hlen ▸ h⟩
    else .error (.wrongLength symbols)
  | character :: input =>
    if separator character then parseFrom value symbols h input
    else
      match normalise character with
      | .error error => .error error
      | .ok symbol =>
        if codeSymbols < symbols + 1 then .error (.wrongLength (symbols + 1))
        else parseFrom (push value symbol) (symbols + 1) (push_lt h symbol) input

/-- `Code::parse`. -/
def parse (input : List Char) : Except CodeError Code := parseFrom 0 0 Nat.one_pos input

/-- The symbol of a value. -/
def symbolAt (value : Fin 32) : Char := alphabet.get value

namespace Code

/-- The last symbols of a code. -/
def lastSymbols (code : Code) (count : Nat) : List Char :=
  (range count).reverse.map (fun index => symbolAt (Fin.ofNat 32 (code.bits >>> (5 * index))))

/-- `Code::symbols`. -/
def symbols (code : Code) : List Char := code.lastSymbols codeSymbols

/-- `Code::grouped`. -/
def grouped (code : Code) : List Char :=
  ['-'].intercalate (code.symbols.toChunks groupSymbols)

end Code

/-- The input without hyphens and spaces, each character normalised. -/
def spelled (input : List Char) : List Char :=
  (input.filter (fun character => !separator character)).map upper

/-- Twelve symbols of the alphabet and nothing else. -/
def WellFormed (input : List Char) : Prop :=
  (spelled input).length = codeSymbols ∧ ∀ character ∈ spelled input, character ∈ alphabet

/-- A character of another script whose low byte is a symbol's. -/
def Narrows (character : Char) : Prop :=
  256 ≤ character.toNat ∧ ∃ symbol ∈ alphabet, symbol.toNat = character.toNat % 256

section Characters

variable {c : Char}

theorem kept_of_le (h : 256 ≤ c.toNat) : separator c = false ∧ upper c = c := by
  have hupper : c.toUpper = c := by
    refine dif_neg fun hlow => ?_
    have hle : c.toNat ≤ 122 := hlow.2
    omega
  refine ⟨decide_eq_false ?_, ?_⟩
  · rintro (rfl | rfl) <;> exact absurd h (by decide)
  · rw [upper, hupper]
    split <;> first | rfl | exact absurd h (by decide)

theorem toNat_lt_of_mem (symbol) (h : symbol ∈ alphabet) : symbol.toNat < 256 := by
  have hall : alphabet.all (·.toNat < 256) = true := by decide
  exact of_decide_eq_true (all_eq_true.mp hall symbol h)

theorem symbolAt_inj : ∀ a b, symbolAt a = symbolAt b ↔ a = b := by decide +kernel

theorem isSome_position :
    (position c).isSome ↔ ∃ symbol ∈ alphabet, symbol.toNat = c.toNat % 256 := by
  have hany : (position c).isSome =
      alphabet.any (fun symbol => symbol.toNat = c.toNat % 256) := isSome_findFinIdx?
  rw [hany, any_eq_true]
  simp

/-- A character that does not narrow stands in the alphabet where it is found. -/
theorem position_upper (h : ¬ Narrows c) (digit : Fin 32) :
    position (upper c) = some digit ↔ upper c = symbolAt digit := by
  by_cases hsmall : c.toNat < 256
  · have hall : ∀ n : Fin 256, ∀ digit, position (upper (Char.ofNat n)) = some digit ↔
        upper (Char.ofNat n) = symbolAt digit := by decide +kernel
    simpa using hall ⟨_, hsmall⟩ digit
  · have hle := Nat.not_lt.mp hsmall
    have hnone : position c = none := by
      rw [← Option.not_isSome_iff_eq_none, isSome_position]
      exact fun hbyte => h ⟨hle, hbyte⟩
    have hin : symbolAt digit ∈ alphabet := get_mem alphabet digit
    rw [(kept_of_le hle).2, hnone]
    exact ⟨nofun, fun heq => absurd (toNat_lt_of_mem _ (heq ▸ hin)) hsmall⟩

end Characters

section Loop

variable {value symbols n : Nat} {h : value < 32 ^ symbols} {input : List Char} {code : Code}

theorem lastSymbols_succ (code : Code) (n : Nat) : code.lastSymbols (n + 1) =
    symbolAt (Fin.ofNat 32 (code.bits >>> (5 * n))) :: code.lastSymbols n := by
  simp [Code.lastSymbols, range_succ]

theorem spelled_cons (c : Char) (input : List Char) : spelled (c :: input) =
    if separator c then spelled input else upper c :: spelled input := by
  cases h : separator c <;> simp [spelled, h]

theorem push_eq_iff {digit : Fin 32} {bits : Nat} :
    push value digit = bits ↔ digit = Fin.ofNat 32 bits ∧ value = bits >>> 5 := by
  rw [push_eq, Fin.ext_iff, Fin.val_ofNat, Nat.shiftRight_eq_div_pow]
  omega

/-- What the loop reads where no character narrows. -/
theorem parseFrom_eq_ok (hgood : ∀ c ∈ input, ¬ Narrows c)
    (hn : symbols + n = codeSymbols) : parseFrom value symbols h input = .ok code ↔
      spelled input = code.lastSymbols n ∧ value = code.bits >>> (5 * n) := by
  induction input generalizing value symbols n with
  | nil =>
    cases n with
    | zero =>
      obtain ⟨bits, hbits⟩ := code
      simp [parseFrom, hn.symm, spelled, Code.lastSymbols]
    | succ n =>
      have hshort : symbols ≠ codeSymbols := by omega
      simp [parseFrom, spelled, lastSymbols_succ, hshort]
  | cons c input ih =>
    obtain ⟨hc, hinput⟩ := forall_mem_cons.mp hgood
    rw [spelled_cons, parseFrom]
    split
    · exact ih hinput hn
    rw [normalise]
    cases hpos : position (upper c) with
    | none =>
      refine ⟨nofun, fun ⟨heq, _⟩ => ?_⟩
      cases n with
      | zero => cases heq
      | succ n =>
        rw [lastSymbols_succ, cons.injEq, ← position_upper hc, hpos] at heq
        cases heq.1
    | some digit =>
      rw [(position_upper hc digit).mp hpos]
      cases n with
      | zero => simp [hn.symm, Code.lastSymbols]
      | succ n =>
        have hroom : ¬ codeSymbols < symbols + 1 := by omega
        have hn : symbols + 1 + n = codeSymbols := by omega
        simp only [hroom, if_false, lastSymbols_succ, cons.injEq, symbolAt_inj]
        rw [ih hinput hn, push_eq_iff, ← Nat.shiftRight_add, Nat.mul_succ, and_left_comm, and_assoc]

/-- The loop accepts as many characters with a symbol's low byte as are missing. -/
theorem parseFrom_accepts (hn : symbols + (spelled input).length = codeSymbols)
    (hf : ∀ c ∈ spelled input, (position c).isSome) :
    ∃ code, parseFrom value symbols h input = .ok code := by
  induction input generalizing value symbols with
  | nil => exact ⟨_, dif_pos hn⟩
  | cons c input ih =>
    rw [spelled_cons] at hn hf
    rw [parseFrom]
    split
    next hskip =>
      rw [if_pos hskip] at hn hf
      exact ih hn hf
    next hskip =>
      rw [if_neg hskip, length_cons] at hn
      rw [if_neg hskip, forall_mem_cons] at hf
      obtain ⟨digit, hdigit⟩ := Option.isSome_iff_exists.mp hf.1
      have hroom : ¬ codeSymbols < symbols + 1 := by omega
      simpa [normalise, hdigit, hroom] using ih (by omega) hf.2

/-- Where no character narrows, an input is read as the code whose symbols it spells. -/
theorem parse_eq_ok (hgood : ∀ c ∈ input, ¬ Narrows c) :
    parse input = .ok code ↔ spelled input = code.symbols := by
  rw [parse, parseFrom_eq_ok hgood (Nat.zero_add codeSymbols), Nat.shiftRight_eq_div_pow]
  exact and_iff_left (Nat.div_eq_of_lt code.small).symm

theorem not_narrows (h : ∀ c ∈ spelled input, c ∈ alphabet) : ∀ c ∈ input, ¬ Narrows c := by
  rintro c hc ⟨hle, -⟩
  obtain ⟨hk, hupper⟩ := kept_of_le hle
  have hin : c ∈ spelled input :=
    mem_map.mpr ⟨c, mem_filter.mpr ⟨hc, by simp [hk]⟩, hupper⟩
  exact absurd (toNat_lt_of_mem c (h c hin)) (Nat.not_lt.mpr hle)

theorem wellFormed_of_spelled (h : spelled input = code.symbols) : WellFormed input := by
  rw [WellFormed, h]
  refine ⟨by simp [Code.symbols, Code.lastSymbols], fun c hc => ?_⟩
  obtain ⟨index, -, rfl⟩ := mem_map.mp hc
  exact get_mem alphabet _

theorem parse_of_spelled (h : spelled input = code.symbols) : parse input = .ok code :=
  (parse_eq_ok (not_narrows (wellFormed_of_spelled h).2)).mpr h

/-- Twelve symbols are the symbols of a code. -/
theorem wellFormed_iff : WellFormed input ↔ ∃ code : Code, spelled input = code.symbols := by
  constructor
  · rintro ⟨hlen, hmem⟩
    obtain ⟨code, hcode⟩ := parseFrom_accepts (h := Nat.one_pos) ((Nat.zero_add _).trans hlen)
      fun c hc => isSome_position.mpr
        ⟨c, hmem c hc, (Nat.mod_eq_of_lt (toNat_lt_of_mem c (hmem c hc))).symm⟩
    exact ⟨code, (parse_eq_ok (not_narrows hmem)).mp hcode⟩
  · rintro ⟨code, h⟩
    exact wellFormed_of_spelled h

end Loop

theorem spelled_symbols (code : Code) : spelled code.symbols = code.symbols := by
  have hk : ∀ digit, separator (symbolAt digit) = false ∧
      upper (symbolAt digit) = symbolAt digit := by decide
  have hlast (n) : spelled (code.lastSymbols n) = code.lastSymbols n := by
    induction n with
    | zero => rfl
    | succ n ih => simp [lastSymbols_succ, spelled_cons, hk, ih]
  exact hlast codeSymbols

theorem spelled_grouped (code : Code) : spelled code.grouped = code.symbols := by
  have hgrouped : code.grouped = code.symbols.take 4 ++
      '-' :: ((code.symbols.drop 4).take 4 ++ '-' :: code.symbols.drop 8) := rfl
  have hhyphen (a b) : spelled (a ++ '-' :: b) = spelled (a ++ b) := by
    simp [spelled, separator]
  rw [hgrouped, hhyphen, ← append_assoc, hhyphen]
  exact spelled_symbols code

/-- On inputs written with some characters, the parser accepts exactly twelve symbols, reads
two inputs as one code exactly if they spell the same, and reads back every code, if and only
if none of the characters narrows to a symbol. -/
theorem codes_parse_exactly_iff (allowed : Char → Prop) :
    ((∀ input, (∀ c ∈ input, allowed c) →
        ((∃ code, parse input = .ok code) ↔ WellFormed input)) ∧
      (∀ input input', (∀ c ∈ input ++ input', allowed c) →
        ((∃ code, parse input = .ok code ∧ parse input' = .ok code) ↔
          WellFormed input ∧ spelled input = spelled input')) ∧
      ∀ code : Code, parse code.symbols = .ok code ∧ parse code.grouped = .ok code) ↔
    ∀ c, allowed c → ¬ Narrows c := by
  constructor
  · rintro ⟨hexact, -⟩ c hall ⟨hle, hbyte⟩
    obtain ⟨hk, hupper⟩ := kept_of_le hle
    have hspelled : spelled (replicate codeSymbols c) = replicate codeSymbols c := by
      simp [spelled, hk, hupper]
    have haccepts : ∃ code, parse (replicate codeSymbols c) = .ok code := by
      refine parseFrom_accepts (by simp [hspelled]) fun other ho => ?_
      rw [hspelled] at ho
      rw [eq_of_mem_replicate ho]
      exact isSome_position.mpr hbyte
    have hmem := ((hexact (replicate codeSymbols c) fun other ho =>
      eq_of_mem_replicate ho ▸ hall).mp haccepts).2
    rw [hspelled] at hmem
    exact absurd (toNat_lt_of_mem c (hmem c mem_cons_self)) (Nat.not_lt.mpr hle)
  · intro hgood
    refine ⟨fun input hall => ?_, fun input input' hall => ?_, fun code => ?_⟩
    · simp only [parse_eq_ok fun c hc => hgood c (hall c hc), wellFormed_iff]
    · rw [forall_mem_append] at hall
      simp only [parse_eq_ok fun c hc => hgood c (hall.1 c hc),
        parse_eq_ok fun c hc => hgood c (hall.2 c hc), wellFormed_iff]
      constructor
      · rintro ⟨code, h, h'⟩
        exact ⟨⟨code, h⟩, h.trans h'.symm⟩
      · rintro ⟨⟨code, h⟩, heq⟩
        exact ⟨code, h, heq ▸ h⟩
    · exact ⟨parse_of_spelled (spelled_symbols code), parse_of_spelled (spelled_grouped code)⟩

/-- The dotted capital I of another script is read as a zero. -/
theorem dotted_capital_parses : parse (replicate codeSymbols 'İ') = .ok ⟨0, by decide⟩ ∧
    parse (replicate codeSymbols 'İ') = parse (replicate codeSymbols '0') ∧
    ¬ WellFormed (replicate codeSymbols 'İ') := by
  refine ⟨by decide, by decide, fun h => ?_⟩
  exact absurd (h.2 'İ' (by decide)) (by decide)

end WealdRelay.Invite.Codes
