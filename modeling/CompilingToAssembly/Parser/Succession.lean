import CompilingToAssembly.Parser.Blanks
import CompilingToAssembly.Parser.Diagnosis

/-! Chapter 6's parser and its successor.

On one token sequence the two agree: chapter 6 accepts it iff chapter 8 does and
every number fits in 63 bits, and then the trees are the same but for the numbers,
which chapter 6 has evaluated (`program_chapter06`). But the two do not read the
same tokens from a text. `chapter06_accepts` says which texts chapter 6 accepts, and
`chapters_agree_iff` for which ones it does what chapter 8 does: programs with the
same statements have as many bytes in words, so a zero that chapter 6 drops from a
word is missed in what it returns (`plain_of_blocks`). -/
namespace CompilingToAssembly
open Library Climb

/-- The tree with its numbers evaluated. -/
def Tree.evaluate : Tree (List UInt8) → Tree Int
  | .number text => .number (decimal text)
  | .identifier name => .identifier name
  | .binary op left right => .binary op left.evaluate right.evaluate

def Statement.evaluate (s : Statement (List UInt8)) : Statement Int := ⟨s.name, s.value.evaluate⟩

/-- Every number is at most `2 ^ 63 - 1`. -/
def Fits (ls : List Lexeme) : Prop := ∀ l ∈ ls, l.kind = .Number → decimal l.text ≤ 2 ^ 63 - 1

theorem fits_append {u v : List Lexeme} : Fits (u ++ v) ↔ Fits u ∧ Fits v := List.forall_mem_append

theorem fits_cons {l : Lexeme} {ls : List Lexeme} :
    Fits (l :: ls) ↔ (l.kind = .Number → decimal l.text ≤ 2 ^ 63 - 1) ∧ Fits ls := List.forall_mem_cons

theorem fits_nil : Fits [] := fun _ hl => (nomatch hl)

/-! ### On one token sequence -/

theorem parseInt_number {text : List UInt8} (h : inClass .Number text = true) :
    parseInt text = if decimal text ≤ 2 ^ 63 - 1 then .ok (decimal text : Int) else .error .Overflow := by
  cases text with
  | nil => simp at h
  | cons c w =>
    have hall : (c :: w).all isDigit = true := by
      simp only [inClass, Bool.and_eq_true] at h
      simp [isDigit_of_nonzero c h.1, h.2]
    simp only [parseInt, hall]
    rfl

/-- The two chapters' leaves. -/
theorem leaf_chapter06 {l : Lexeme} (hl : inClass l.kind l.text = true) (t : Tree Int) :
    (Descent.operators chapter06).leaf l = some (.ok t) ↔ Fits [l] ∧
      ∃ t', (Descent.operators chapter08).leaf l = some (.ok t') ∧ t = t'.evaluate := by
  obtain ⟨kind, text⟩ := l
  cases kind with
  | Number =>
    have hfits : Fits [⟨.Number, text⟩] ↔ decimal text ≤ 2 ^ 63 - 1 := by simp [Fits]
    have hleaf : (Descent.operators chapter06).leaf ⟨.Number, text⟩ =
      some ((parseInt text).map .number) := rfl
    have hleaf' : (Descent.operators chapter08).leaf ⟨.Number, text⟩ = some (.ok (.number text)) := rfl
    rw [hleaf, hleaf', parseInt_number hl, hfits]
    by_cases hle : decimal text ≤ 2 ^ 63 - 1
    · simp only [hle, if_true, true_and]
      constructor
      · intro h
        cases h
        exact ⟨_, rfl, rfl⟩
      · rintro ⟨t', h, rfl⟩
        cases h
        rfl
    · simp only [hle, if_false, false_and, iff_false]
      exact fun h => (nomatch h)
  | Identifier =>
    have hfits : Fits [⟨.Identifier, text⟩] := by simp [Fits]
    constructor
    · intro h
      cases h
      exact ⟨hfits, _, rfl, rfl⟩
    · rintro ⟨_, t', h, rfl⟩
      cases h
      rfl
  | _ => exact ⟨fun h => (nomatch h), fun ⟨_, _, h, _⟩ => (nomatch h)⟩

theorem fits_of_kind {l : Lexeme} (h : l.kind ≠ .Number) : Fits [l] := by
  intro l' hl' hk
  rw [List.mem_singleton.mp hl'] at hk
  exact absurd hk h

theorem derives_chapter06 {p : Nat} {u : List Lexeme} (hu : Lexical u) (t : Tree Int) :
    Derives (Descent.operators chapter06) p u t ↔ Fits u ∧
      ∃ t', Derives (Descent.operators chapter08) p u t' ∧ t = t'.evaluate := by
  constructor
  · intro h
    induction h with
    | leaf hl =>
      obtain ⟨hfits, t', ht', rfl⟩ := (leaf_chapter06 hu.cons.1 _).mp hl
      exact ⟨hfits, t', .leaf ht', rfl⟩
    | @bracket p o c u t _ ho hc _ ih =>
      have hok : o.kind = .LeftParen := eq_of_beq ho
      have hck : c.kind = .RightParen := eq_of_beq hc
      obtain ⟨hfits, t', ht', rfl⟩ := ih hu.cons.2.append.1
      have hleaf : (Descent.operators chapter08).leaf o = none := by simp [Descent.operators, hok]
      exact ⟨fits_cons.mpr ⟨by simp [hok], fits_append.mpr ⟨hfits, fits_of_kind (by simp [hck])⟩⟩,
        t', .bracket hleaf ho hc ht', rfl⟩
    | @node p o u v l r hp _ _ ihl ihr =>
      have hok : o.kind = .Operator := by
        by_contra hok
        rw [Descent.prec_of_kind chapter06 hok] at hp
        exact absurd hp (Nat.not_lt_zero _)
      obtain ⟨hfl, l', hl', rfl⟩ := ihl hu.append.1
      obtain ⟨hfr, r', hr', rfl⟩ := ihr hu.append.2.cons.2
      exact ⟨fits_append.mpr ⟨hfl, fits_cons.mpr ⟨by simp [hok], hfr⟩⟩, _, .node hp hl' hr', rfl⟩
  · rintro ⟨hfits, t', h, rfl⟩
    induction h with
    | leaf hl => exact .leaf ((leaf_chapter06 hu.cons.1 _).mpr ⟨hfits, _, hl, rfl⟩)
    | @bracket p o c u t _ ho hc _ ih =>
      have hok : o.kind = .LeftParen := eq_of_beq ho
      have hleaf : (Descent.operators chapter06).leaf o = none := by simp [Descent.operators, hok]
      exact .bracket hleaf ho hc (ih hu.cons.2.append.1 (fits_append.mp (fits_cons.mp hfits).2).1)
    | node hp _ _ ihl ihr =>
      obtain ⟨hfl, hfr⟩ := fits_append.mp hfits
      exact .node (t := _) hp (ihl hu.append.1 hfl) (ihr hu.append.2.cons.2 (fits_cons.mp hfr).2)

theorem statement_chapter06 {u : List Lexeme} (hu : Lexical u) (s : Statement Int) :
    Descent.IsStatement chapter06 u s ↔ Fits u ∧
      ∃ s', Descent.IsStatement chapter08 u s' ∧ s = s'.evaluate := by
  constructor
  · intro h
    cases h with
    | @mk v i e s u t hv hi he hs ht =>
      have hvk : v.kind = .Identifier := by
        simp only [Descent.isVarWord, Bool.and_eq_true, beq_iff_eq] at hv
        exact hv.1
      have hik : i.kind = .Identifier := eq_of_beq hi
      have hsk : s.kind = .Semicolon := eq_of_beq hs
      have hrest := hu.cons.2.cons.2
      have hek : e.kind ≠ .Number := by
        intro hk
        have hclass := hrest.cons.1
        rw [hk, eq_of_beq he] at hclass
        exact absurd hclass (by decide)
      obtain ⟨hfits, t', ht', rfl⟩ := (derives_chapter06 hrest.cons.2.append.1 t).mp ht
      have hvalue : Fits (u ++ [s]) := fits_append.mpr ⟨hfits, fits_of_kind (by simp [hsk])⟩
      have hall : Fits (v :: i :: e :: (u ++ [s])) := fits_cons.mpr ⟨by simp [hvk],
        fits_cons.mpr ⟨by simp [hik], fits_cons.mpr ⟨fun hk => absurd hk hek, hvalue⟩⟩⟩
      exact ⟨hall, ⟨i.text, t'⟩, .mk hv hi he hs ht', rfl⟩
  · rintro ⟨hfits, s', h, rfl⟩
    cases h with
    | @mk v i e s u t hv hi he hs ht =>
      have hvalue := hu.cons.2.cons.2.cons.2.append.1
      have hf := (fits_append.mp (fits_cons.mp (fits_cons.mp (fits_cons.mp hfits).2).2).2).1
      exact .mk hv hi he hs ((derives_chapter06 hvalue _).mpr ⟨hf, t, ht, rfl⟩)

/-- **On one token sequence the chapters agree**, where the numbers fit. -/
theorem program_chapter06 {ls : List Lexeme} (hls : Lexical ls) (ss : List (Statement Int)) :
    Descent.Program chapter06 ls ss ↔ Fits ls ∧
      ∃ ss', Descent.Program chapter08 ls ss' ∧ ss = ss'.map Statement.evaluate := by
  constructor
  · intro h
    induction h with
    | nil => exact ⟨fits_nil, [], .nil, rfl⟩
    | cons hs _ ih =>
      obtain ⟨hfs, s', hs', rfl⟩ := (statement_chapter06 hls.append.1 _).mp hs
      obtain ⟨hf, ss', hss', rfl⟩ := ih hls.append.2
      exact ⟨fits_append.mpr ⟨hfs, hf⟩, s' :: ss', .cons hs' hss', rfl⟩
  · rintro ⟨hfits, ss', h, rfl⟩
    induction h with
    | nil => exact .nil
    | cons hs _ ih =>
      obtain ⟨hfs, hf⟩ := fits_append.mp hfits
      exact .cons ((statement_chapter06 hls.append.1 _).mpr ⟨hfs, _, hs, rfl⟩) (ih hls.append.2 hf)

/-! ### What chapter 6 accepts -/

theorem derives_ne_empty {p : Nat} {u : List Lexeme} {t : Tree Int}
    (h : Derives (Descent.operators chapter06) p u t) : ⟨.Number, []⟩ ∉ u := by
  induction h with
  | leaf hl =>
    intro hmem
    rw [← List.mem_singleton.mp hmem] at hl
    cases hl
  | bracket _ ho hc _ ih =>
    intro hmem
    simp only [List.mem_cons, List.mem_append, List.not_mem_nil, or_false] at hmem
    rcases hmem with rfl | hmem | rfl
    · cases ho
    · exact ih hmem
    · cases hc
  | node hp _ _ ihl ihr =>
    intro hmem
    simp only [List.mem_cons, List.mem_append] at hmem
    rcases hmem with hmem | rfl | hmem
    · exact ihl hmem
    · exact absurd hp (Nat.not_lt_zero _)
    · exact ihr hmem

/-- An empty number is in no program. -/
theorem program_ne_empty {ls : List Lexeme} {ss : List (Statement Int)}
    (h : Descent.Program chapter06 ls ss) : ⟨.Number, []⟩ ∉ ls := by
  induction h with
  | nil => exact List.not_mem_nil
  | cons hs _ ih =>
    intro hmem
    rcases List.mem_append.mp hmem with hmem | hmem
    · obtain ⟨hv, hi, he, hs, ht⟩ := hs
      simp only [List.mem_cons, List.mem_append, List.not_mem_nil, or_false] at hmem
      rcases hmem with rfl | rfl | rfl | hmem | rfl
      · cases hv
      · cases hi
      · cases he
      · exact derives_ne_empty ht hmem
      · cases hs
    · exact ih hmem

namespace Chapter06

theorem parse_eq (input : List UInt8) :
    parse (Parser.init input) =
      match (Parser.init input).parseStatements chapter06 (input.length + 2) [] with
      | .error e => .error e
      | .ok (items, self) => .ok { self with nodes := self.nodes.append (.Block items) } := rfl

/-- The `Block` chapter 6 leaves at the end of its list. -/
theorem parse_of_program {input : List UInt8} {ls : List Lexeme} {ss : List (Statement Int)}
    (hls : Reads isNumeric input ls) (h : Descent.Program chapter06 ls ss) :
    ∃ self, parse (Parser.init input) = .ok self ∧ IsBlock self.nodes self.nodes.lastPointer ss := by
  obtain ⟨items, after, hafter, hbuilt⟩ := (@parse_program _ chapter06 _ _ hls ss).mp h
  rw [parse_eq, hafter]
  exact ⟨_, rfl, items, ArrayList.deref_lastPointer ..,
    hbuilt.vars.imp fun _ _ hv => hv.grows (ArrayList.Grows.append ..)⟩

theorem program_of_parse {input : List UInt8} {ls : List Lexeme} {self : Parser Int}
    (hls : Reads isNumeric input ls) (h : parse (Parser.init input) = .ok self) :
    ∃ ss, Descent.Program chapter06 ls ss := by
  have hinit := parseStatements_init chapter06 hls
  rw [parse_eq] at h
  cases hp : Descent.program chapter06 (input.length + 2) (input.length + 2) ls with
  | ok ss => exact ⟨ss, Descent.program_sound hp⟩
  | error e =>
    rw [hp] at hinit
    simp only at hinit
    rw [hinit] at h
    cases h

end Chapter06

/-- The text is a program of the grammar. -/
def InLanguage (input : List UInt8) : Prop := ∃ ss, Prog (lexemes input) ss

theorem inLanguage_iff {input : List UInt8} : InLanguage input ↔ Chapter08.Accepts input := by
  simp only [InLanguage, Chapter08.accepts_iff, prog_iff (lexical_lexemes input)]

/-- **What chapter 6 accepts**: the texts without a nine that are programs with numbers
that fit, once their zeros are blanks. -/
theorem chapter06_accepts (input : List UInt8) :
    (∃ self, Chapter06.parse (Parser.init input) = .ok self) ↔
      byte '9' ∉ input ∧ InLanguage (blankZeros input) ∧ Fits (lexemes (blankZeros input)) := by
  have hlexical := lexical_lexemes (blankZeros input)
  constructor
  · rintro ⟨self, h⟩
    have hnine : byte '9' ∉ input := by
      intro hmem
      obtain ⟨ls, hls⟩ := @exists_reads Chapter06.isNumeric input
      obtain ⟨ss, hss⟩ := Chapter06.program_of_parse hls h
      exact program_ne_empty hss (nine_stuck hls hmem)
    obtain ⟨ss, hss⟩ := Chapter06.program_of_parse (reads_chapter06 hnine) h
    obtain ⟨hfits, ss', hss', _⟩ := (program_chapter06 hlexical ss).mp hss
    exact ⟨hnine, ⟨ss', (prog_iff hlexical).mpr hss'⟩, hfits⟩
  · rintro ⟨hnine, ⟨ss, hss⟩, hfits⟩
    obtain ⟨self, h, _⟩ := Chapter06.parse_of_program (reads_chapter06 hnine)
      ((program_chapter06 hlexical _).mpr ⟨hfits, ss, (prog_iff hlexical).mp hss, rfl⟩)
    exact ⟨self, h⟩

/-- The `Block` it then returns. -/
theorem chapter06_block {input : List UInt8} {self : Parser Int}
    (h : Chapter06.parse (Parser.init input) = .ok self) :
    ∃ ss, Prog (lexemes (blankZeros input)) ss ∧
      IsBlock self.nodes self.nodes.lastPointer (ss.map Statement.evaluate) := by
  obtain ⟨hnine, ⟨ss, hss⟩, hfits⟩ := (chapter06_accepts input).mp ⟨self, h⟩
  have hlexical := lexical_lexemes (blankZeros input)
  obtain ⟨self', h', hblock⟩ := Chapter06.parse_of_program (reads_chapter06 hnine)
    ((program_chapter06 hlexical _).mpr ⟨hfits, ss, (prog_iff hlexical).mp hss, rfl⟩)
  rw [h] at h'
  cases h'
  exact ⟨ss, hss, hblock⟩

/-! ### Zeros in tokens -/

/-- The bytes that start a word. -/
def isWordHead (c : UInt8) : Bool := isWordStart c || between '1' '9' c

/-- The bytes in words, and the zeros in tokens. -/
def wordBytes (ls : List Lexeme) : Nat := (ls.map fun l => if isWord l then l.text.length else 0).sum
def zeroBytes (ls : List Lexeme) : Nat := (ls.map fun l => l.text.count (byte '0')).sum

theorem isWordHead_cases (c : UInt8) :
    (isWordByte c = true → (isWordHead c = true ∧ c ≠ byte '0') ∨ (isWordHead c = false ∧ c = byte '0')) ∧
      (prong c ≠ .identifier → prong c ≠ .number → isWordHead c = false) ∧
      (c ∈ seconds → isWordHead c = false ∧ c ≠ byte '0') :=
  forall_byte (P := fun c =>
    (isWordByte c = true → (isWordHead c = true ∧ c ≠ byte '0') ∨ (isWordHead c = false ∧ c = byte '0')) ∧
      (prong c ≠ .identifier → prong c ≠ .number → isWordHead c = false) ∧
      (c ∈ seconds → isWordHead c = false ∧ c ≠ byte '0')) (by decide +kernel) c

theorem length_word {text : List UInt8} (h : ∀ c ∈ text, isWordByte c = true) :
    text.length = text.countP isWordHead + text.count (byte '0') := by
  induction text with
  | nil => rfl
  | cons c text ih =>
    have := ih fun c hc => h c (List.mem_cons_of_mem _ hc)
    rw [List.length_cons, List.countP_cons, List.count_cons]
    rcases (isWordHead_cases c).1 (h c (List.mem_cons_self ..)) with ⟨hhead, hne⟩ | ⟨hhead, rfl⟩
    · simp only [hhead, if_true, beq_iff_eq, hne, if_false]
      omega
    · simp only [hhead, Bool.false_eq_true, if_false, beq_self_eq_true, if_true]
      omega

/-- Outside words there is no zero and no byte that could start a word. -/
theorem token_bytes {l : Lexeme} (hl : inClass l.kind l.text = true) :
    (if isWord l then l.text.length else 0) =
      l.text.countP isWordHead + l.text.count (byte '0') := by
  have plain {c : UInt8} (hi : prong c ≠ .identifier) (hn : prong c ≠ .number) (hs : prong c ≠ .skip) :
      isWordHead c = false ∧ c ≠ byte '0' :=
    ⟨(isWordHead_cases c).2.1 hi hn, fun he => hs (by rw [he]; decide)⟩
  obtain ⟨kind, text⟩ := l
  cases text with
  | nil => simp at hl
  | cons c w =>
    rcases inClass_cons hl with ⟨rfl, hp, hw⟩ | ⟨rfl, hp, hw⟩ | ⟨hp, rfl⟩ |
      ⟨rfl, second, hp, rfl | ⟨c2, hc2, rfl⟩⟩
    · refine length_word (List.forall_mem_cons.mpr ⟨?_, List.all_eq_true.mp hw⟩)
      exact isWordByte_of_start ((prong_identifier c).mp hp)
    · have hdigit {d : UInt8} (hd : isDigit d = true) : isWordByte d = true := by simp [isWordByte, hd]
      refine length_word (List.forall_mem_cons.mpr ⟨?_, fun d hd => hdigit (List.all_eq_true.mp hw d hd)⟩)
      exact hdigit (isDigit_of_nonzero c ((prong_number c).mp hp))
    · obtain ⟨_, hi, hn, _⟩ := prong_single c kind hp
      obtain ⟨hhead, hzero⟩ := plain (c := c) (by rw [hp]; simp) (by rw [hp]; simp) (by rw [hp]; simp)
      simp [isWord, hi, hn, hhead, hzero]
    · obtain ⟨hhead, hzero⟩ := plain (c := c) (by rw [hp]; simp) (by rw [hp]; simp) (by rw [hp]; simp)
      simp [isWord, hhead, hzero]
    · obtain ⟨hhead, hzero⟩ := plain (c := c) (by rw [hp]; simp) (by rw [hp]; simp) (by rw [hp]; simp)
      obtain ⟨hhead2, hzero2⟩ := (isWordHead_cases c2).2.2 (second_mem_seconds hp hc2)
      simp [isWord, hhead, hzero, hhead2, hzero2]

/-- The bytes in words are those that start one, wherever they stand, and the zeros. -/
theorem reads_wordBytes {text : List UInt8} {ls : List Lexeme} (h : Reads Chapter08.isNumeric text ls) :
    wordBytes ls = text.countP isWordHead + zeroBytes ls := by
  have skip {bytes : List UInt8} (hskip : ∀ b ∈ bytes, prong b = .skip) : bytes.countP isWordHead = 0 := by
    refine List.countP_eq_zero.mpr fun b hb => ?_
    rw [(isWordHead_cases b).2.1 (by rw [hskip b hb]; simp) (by rw [hskip b hb]; simp)]
    decide
  induction h with
  | done hr =>
    rw [skip (read_eq_none.mp hr)]
    rfl
  | @step text r ls hr _ _ ih =>
    have htoken := token_bytes (read_inClass hr)
    have hword : wordBytes (r.lexeme :: ls) = (if isWord r.lexeme then r.lexeme.text.length else 0) +
      wordBytes ls := rfl
    have hzero : zeroBytes (r.lexeme :: ls) = r.lexeme.text.count (byte '0') + zeroBytes ls := rfl
    rw [read_append hr, List.countP_append, List.countP_append, skip (read_eq_some hr).1, hword, hzero,
      htoken, ih]
    omega
  | stuck hr he => exact absurd he (read_ne_nil hr)

/-- What stands in a token stands in the text, and all that is not stepped over stands
in a token. -/
theorem reads_mem {text : List UInt8} {ls : List Lexeme} (h : Reads Chapter08.isNumeric text ls)
    {c : UInt8} :
    (∀ l ∈ ls, c ∈ l.text → c ∈ text) ∧ (c ∈ text → prong c ≠ .skip → ∃ l ∈ ls, c ∈ l.text) := by
  induction h with
  | done hr =>
    exact ⟨fun l hl => (nomatch hl), fun hc hp => absurd (read_eq_none.mp hr c hc) hp⟩
  | @step text r ls hr _ _ ih =>
    rw [read_append hr]
    refine ⟨fun l hl hc => ?_, fun hc hp => ?_⟩
    · rcases List.mem_cons.mp hl with rfl | hl
      · exact List.mem_append_right _ (List.mem_append_left _ hc)
      · exact List.mem_append_right _ (List.mem_append_right _ (ih.1 l hl hc))
    · rcases List.mem_append.mp hc with hc | hc
      · exact absurd ((read_eq_some hr).1 c hc) hp
      · rcases List.mem_append.mp hc with hc | hc
        · exact ⟨r.lexeme, List.mem_cons_self .., hc⟩
        · obtain ⟨l, hl, hc⟩ := ih.2 hc hp
          exact ⟨l, List.mem_cons_of_mem _ hl, hc⟩
  | stuck hr he => exact absurd he (read_ne_nil hr)

theorem zeroBytes_eq_zero {ls : List Lexeme} : zeroBytes ls = 0 ↔ ∀ l ∈ ls, byte '0' ∉ l.text := by
  simp [zeroBytes, List.sum_eq_zero_iff_forall_eq_nat, List.count_eq_zero]

/-- Blanks for zeros leave the words with what starts a word. -/
theorem wordBytes_blankZeros (text : List UInt8) :
    wordBytes (lexemes (blankZeros text)) = text.countP isWordHead := by
  have hzero : byte '0' ∉ blankZeros text := by
    intro hmem
    obtain ⟨c, _, hc⟩ := List.mem_map.mp hmem
    exact forall_byte (P := fun c => blankByte c ≠ byte '0') (by decide +kernel) c hc
  have hreads := reads_lexemes (blankZeros text)
  have hnone : zeroBytes (lexemes (blankZeros text)) = 0 :=
    zeroBytes_eq_zero.mpr fun l hl hmem => hzero ((reads_mem hreads).1 l hl hmem)
  have hhead : isWordHead ∘ blankByte = isWordHead := by
    funext c
    exact forall_byte (P := fun c => isWordHead (blankByte c) = isWordHead c) (by decide +kernel) c
  rw [reads_wordBytes hreads, hnone, blankZeros, List.countP_map, hhead, Nat.add_zero]

/-- Zeros outside tokens may be blanks. -/
theorem lexemes_blankZeros {text : List UInt8} (h : ∀ l ∈ lexemes text, byte '0' ∉ l.text) :
    lexemes (blankZeros text) = lexemes text := by
  apply lexemes_eq
  have hreads := reads_lexemes text
  generalize lexemes text = ls at h hreads
  induction hreads with
  | done hr =>
    refine .done (read_eq_none.mpr fun b hb => ?_)
    obtain ⟨c, hc, rfl⟩ := List.mem_map.mp hb
    rw [prong_blankByte]
    exact read_eq_none.mp hr c hc
  | @step text r ls hr _ _ ih =>
    obtain ⟨hskip, ch, tail, _, hf⟩ := read_eq_some hr
    obtain ⟨hhead, htail⟩ := List.forall_mem_cons.mp h
    have htext : blankZeros r.lexeme.text = r.lexeme.text :=
      (List.map_congr_left fun c hc => blankByte_of_ne fun he => hhead (he ▸ hc)).trans (List.map_id _)
    rw [read_append hr, blankZeros_append, blankZeros_append, htext]
    refine .cons (fun b hb => ?_) (read_inClass hr) (fun b hb => ?_) (ih htail)
    · obtain ⟨c, hc, rfl⟩ := List.mem_map.mp hb
      rw [prong_blankByte]
      exact hskip c hc
    · rw [blankZeros, List.head?_map] at hb
      obtain ⟨c, hc, rfl⟩ := Option.map_eq_some_iff.mp hb
      by_cases hzero : c = byte '0'
      · exact not_glues_whitespace (read_inClass hr) (by rw [hzero]; decide)
      · rw [blankByte_of_ne hzero]
        exact first_stops hf c hc
  | stuck hr he => exact absurd he (read_ne_nil hr)

/-! ### Trees and their words -/

/-- The bytes of the words that a tree was read from. -/
def Tree.wordBytes : Tree (List UInt8) → Nat
  | .number text => text.length
  | .identifier name => name.length
  | .binary _ left right => left.wordBytes + right.wordBytes

theorem wordBytes_append (u v : List Lexeme) : wordBytes (u ++ v) = wordBytes u + wordBytes v := by
  simp [wordBytes]

theorem wordBytes_cons (l : Lexeme) (ls : List Lexeme) :
    wordBytes (l :: ls) = (if isWord l then l.text.length else 0) + wordBytes ls := rfl

theorem Phrase.wordBytes_eq {k : Nonterminal} {u : List Lexeme} {t : Tree (List UInt8)}
    (h : Phrase k u t) : wordBytes u = t.wordBytes := by
  induction h with
  | number => rfl
  | identifier => rfl
  | factor _ ih => exact ih
  | term _ ih => exact ih
  | parens _ ih =>
    rw [wordBytes_cons, wordBytes_append, ih]
    simp [wordBytes, isWord, punct]
  | product _ _ _ ihl ihr =>
    rw [wordBytes_append, wordBytes_cons, ihl, ihr]
    simp [isWord, Tree.wordBytes]
  | sum _ _ _ ihl ihr =>
    rw [wordBytes_append, wordBytes_cons, ihl, ihr]
    simp [isWord, Tree.wordBytes]

/-- Two texts with the same statements have as many bytes in words. -/
theorem Prog.wordBytes_eq {ls : List Lexeme} {ss : List (Statement (List UInt8))} (h : Prog ls ss) :
    wordBytes ls = (ss.map fun s => 3 + s.name.length + s.value.wordBytes).sum := by
  induction h with
  | nil => rfl
  | cons hs _ ih =>
    obtain ⟨ht⟩ := hs
    rw [wordBytes_append, ih, wordBytes_cons, wordBytes_cons, wordBytes_cons, wordBytes_append,
      ht.wordBytes_eq]
    simp [wordBytes, isWord, punct, ascii]
    omega

theorem number_inj {a b : List UInt8} (ha : inClass .Number a = true) (hb : inClass .Number b = true)
    (h : decimal a = decimal b) : a = b := by
  have parts {text : List UInt8} (ht : inClass .Number text = true) :
      (∀ c ∈ text, isDigit c = true) ∧ ∀ c ∈ text.head?, digitValue c ≠ 0 := by
    cases text with
    | nil => simp at ht
    | cons c w =>
      simp only [inClass, Bool.and_eq_true] at ht
      refine ⟨List.forall_mem_cons.mpr ⟨isDigit_of_nonzero c ht.1, List.all_eq_true.mp ht.2⟩, ?_⟩
      intro d hd
      cases hd
      exact forall_byte (P := fun c => between '1' '9' c = true → digitValue c ≠ 0) (by decide +kernel)
        c ht.1
  exact decimal_inj (parts ha).1 (parts hb).1 (parts ha).2 (parts hb).2 h

theorem Tree.evaluate_inj {t t' : Tree (List UInt8)} (ht : ∀ n ∈ t.numerals, inClass .Number n = true)
    (ht' : ∀ n ∈ t'.numerals, inClass .Number n = true) (h : t.evaluate = t'.evaluate) : t = t' := by
  induction t generalizing t' with
  | number text =>
    cases t' with
    | number text' =>
      simp only [Tree.evaluate, Tree.number.injEq, Nat.cast_inj] at h
      rw [number_inj (ht text (List.mem_singleton_self _)) (ht' text' (List.mem_singleton_self _)) h]
    | _ => cases h
  | identifier name =>
    cases t' with
    | identifier name' =>
      cases h
      rfl
    | _ => cases h
  | binary op left right ihl ihr =>
    cases t' with
    | binary op' left' right' =>
      simp only [Tree.evaluate, Tree.binary.injEq] at h
      obtain ⟨hl, hr⟩ := List.forall_mem_append.mp ht
      obtain ⟨hl', hr'⟩ := List.forall_mem_append.mp ht'
      rw [h.1, ihl hl hl' h.2.1, ihr hr hr' h.2.2]
    | _ => cases h

/-- Nothing is lost where numbers are evaluated. -/
theorem evaluate_inj {ls ls' : List Lexeme} {ss ss' : List (Statement (List UInt8))}
    (hls : Lexical ls) (hls' : Lexical ls') (hss : Prog ls ss) (hss' : Prog ls' ss')
    (h : ss.map Statement.evaluate = ss'.map Statement.evaluate) : ss = ss' := by
  have hvalid := hss.numerals_valid hls
  have hvalid' := hss'.numerals_valid hls'
  clear hss hss'
  induction ss generalizing ss' with
  | nil =>
    cases ss' with
    | nil => rfl
    | cons => cases h
  | cons s ss ih =>
    cases ss' with
    | nil => cases h
    | cons s' ss' =>
      obtain ⟨hs, hss⟩ := List.forall_mem_cons.mp hvalid
      obtain ⟨hs', hss'⟩ := List.forall_mem_cons.mp hvalid'
      obtain ⟨hhead, htail⟩ := List.cons.inj h
      obtain ⟨name, value⟩ := s
      obtain ⟨name', value'⟩ := s'
      simp only [Statement.evaluate, Statement.mk.injEq] at hhead
      obtain rfl : value = value' := Tree.evaluate_inj hs hs' hhead.2
      rw [hhead.1, ih htail hss hss']

/-! ### Where the chapters agree -/

/-- **Chapter 8 succeeds chapter 6.** Where every number fits, the two accept the same
texts and return the same `Block`, but for the numbers, which are texts in chapter 8
and their values in chapter 6. Where one does not fit and chapter 8 accepts the text,
chapter 6 returns an error. -/
def Succeeds (input : List UInt8) : Prop :=
  (Fits (lexemes input) →
      ((∃ self, Chapter06.parse (Parser.init input) = .ok self) ↔ Chapter08.Accepts input) ∧
      ∀ self root self', Chapter06.parse (Parser.init input) = .ok self →
        Chapter08.parse (Parser.init input) = .ok (root, self') →
        ∃ ss, IsBlock self'.nodes root ss ∧
          IsBlock self.nodes self.nodes.lastPointer (ss.map Statement.evaluate)) ∧
    (¬ Fits (lexemes input) → Chapter08.Accepts input →
      ∃ e, Chapter06.parse (Parser.init input) = .error e)

/-- No digit zero and no digit nine is in a token. -/
def PlainDigits (ls : List Lexeme) : Prop := ∀ l ∈ ls, byte '0' ∉ l.text ∧ byte '9' ∉ l.text

/-- Without zeros and nines in its tokens a text is read alike by both. -/
theorem plain_reads {input : List UInt8} (h : PlainDigits (lexemes input)) :
    byte '9' ∉ input ∧ lexemes (blankZeros input) = lexemes input := by
  refine ⟨fun hmem => ?_, lexemes_blankZeros fun l hl => (h l hl).1⟩
  obtain ⟨l, hl, hc⟩ := (reads_mem (reads_lexemes input)).2 hmem (by decide)
  exact (h l hl).2 hc

/-- A text on which both return the same has no zeros and nines in its tokens. -/
theorem plain_of_blocks {input : List UInt8} {self : Parser Int} {ss : List (Statement (List UInt8))}
    (h : Chapter06.parse (Parser.init input) = .ok self) (hss : Prog (lexemes input) ss)
    (hblock : IsBlock self.nodes self.nodes.lastPointer (ss.map Statement.evaluate)) :
    PlainDigits (lexemes input) := by
  have hreads := reads_lexemes input
  obtain ⟨hnine, _⟩ := (chapter06_accepts input).mp ⟨self, h⟩
  obtain ⟨ss', hss', hblock'⟩ := chapter06_block h
  obtain rfl : ss = ss' := evaluate_inj (lexical_lexemes _) (lexical_lexemes _) hss hss'
    (hblock.unique hblock')
  -- the words have lost no byte, so there was no zero in them
  have hzero : zeroBytes (lexemes input) = 0 := by
    have hwords : wordBytes (lexemes input) = wordBytes (lexemes (blankZeros input)) :=
      hss.wordBytes_eq.trans hss'.wordBytes_eq.symm
    rw [reads_wordBytes hreads, wordBytes_blankZeros] at hwords
    omega
  exact fun l hl => ⟨zeroBytes_eq_zero.mp hzero l hl, fun hmem => hnine ((reads_mem hreads).1 l hl hmem)⟩

/-- Without zeros and nines in its tokens a program is accepted by chapter 6 too, -/
theorem accepts_of_plain {input : List UInt8} (h : PlainDigits (lexemes input)) (hin : InLanguage input)
    (hfits : Fits (lexemes input)) : ∃ self, Chapter06.parse (Parser.init input) = .ok self := by
  obtain ⟨hnine, hsame⟩ := plain_reads h
  rw [chapter06_accepts, InLanguage, hsame]
  exact ⟨hnine, hin, hfits⟩

/-- and the two return the same `Block`. -/
theorem blocks_of_plain {input : List UInt8} {self : Parser Int} {root : Pointer}
    {self' : Parser (List UInt8)} (hplain : PlainDigits (lexemes input))
    (h : Chapter06.parse (Parser.init input) = .ok self)
    (h' : Chapter08.parse (Parser.init input) = .ok (root, self')) :
    ∃ ss, IsBlock self'.nodes root ss ∧
      IsBlock self.nodes self.nodes.lastPointer (ss.map Statement.evaluate) := by
  obtain ⟨ss, hss, hblock⟩ := chapter06_block h
  rw [(plain_reads hplain).2] at hss
  obtain ⟨ss', items, after, hss', hroot, hbuilt⟩ := Chapter08.program_of_parse h'
  obtain rfl := ((prog_iff (lexical_lexemes input)).mp hss).unique hss'
  cases hroot
  exact ⟨ss, Chapter08.isBlock_pushNode hbuilt, hblock⟩

theorem Succeeds.plain {input : List UInt8} (h : Succeeds input) (hin : InLanguage input)
    (hfits : Fits (lexemes input)) : PlainDigits (lexemes input) := by
  obtain ⟨hsame, hblocks⟩ := h.1 hfits
  have hok := inLanguage_iff.mp hin
  obtain ⟨self, hparse⟩ := hsame.mpr hok
  obtain ⟨root, self', hparse'⟩ := hok
  obtain ⟨ss, hss, hblock⟩ := hblocks self root self' hparse hparse'
  exact plain_of_blocks hparse
    ((prog_iff (lexical_lexemes input)).mpr (Chapter08.program_of_block hparse' hss)) hblock

/-- Where chapter 8 rejects, or a number does not fit, chapter 6 must reject too. -/
theorem Succeeds.rejects {input : List UInt8} (h : Succeeds input)
    (hdiffer : InLanguage input ↔ ¬ Fits (lexemes input)) :
    ¬ ∃ self, Chapter06.parse (Parser.init input) = .ok self := by
  intro hok
  by_cases hfits : Fits (lexemes input)
  · exact hdiffer.mp (inLanguage_iff.mpr ((h.1 hfits).1.mp hok)) hfits
  · obtain ⟨e, he⟩ := h.2 hfits (inLanguage_iff.mp (hdiffer.mpr hfits))
    obtain ⟨self, hself⟩ := hok
    rw [he] at hself
    cases hself

theorem succeeds_of {input : List UInt8}
    (hplain : InLanguage input → Fits (lexemes input) → PlainDigits (lexemes input))
    (hrejects : (InLanguage input ↔ ¬ Fits (lexemes input)) →
      ¬ ∃ self, Chapter06.parse (Parser.init input) = .ok self) : Succeeds input := by
  refine ⟨fun hfits => ⟨⟨fun hok => ?_, fun hok => ?_⟩, fun self root self' h h' => ?_⟩,
    fun hfits hok => ?_⟩
  · by_contra hnot
    exact hrejects ⟨fun hin => absurd (inLanguage_iff.mp hin) hnot, fun h => absurd hfits h⟩ hok
  · have hin := inLanguage_iff.mpr hok
    exact accepts_of_plain (hplain hin hfits) hin hfits
  · exact blocks_of_plain (hplain (inLanguage_iff.mpr ⟨root, self', h'⟩) hfits) h h'
  · cases h : Chapter06.parse (Parser.init input) with
    | error e => exact ⟨e, rfl⟩
    | ok self => exact absurd ⟨self, h⟩ (hrejects ⟨fun _ => hfits, fun _ => inLanguage_iff.mpr hok⟩)

/-- The chapters agree on exactly these texts: a program whose numbers fit has no zero
and no nine in its tokens; a text that is no program but has numbers that fit, or is
one and has a number that does not, has a nine or is no program with numbers that fit
when its zeros are blanks. -/
theorem chapters_agree_iff (input : List UInt8) :
    Succeeds input ↔
      (InLanguage input → Fits (lexemes input) → PlainDigits (lexemes input)) ∧
        ((InLanguage input ↔ ¬ Fits (lexemes input)) →
          byte '9' ∈ input ∨ ¬ InLanguage (blankZeros input) ∨ ¬ Fits (lexemes (blankZeros input))) := by
  have hrejects : (¬ ∃ self, Chapter06.parse (Parser.init input) = .ok self) ↔
      byte '9' ∈ input ∨ ¬ InLanguage (blankZeros input) ∨ ¬ Fits (lexemes (blankZeros input)) := by
    rw [chapter06_accepts, not_and_or, not_and_or, not_not]
  rw [← hrejects]
  exact ⟨fun h => ⟨h.plain, h.rejects⟩, fun h => succeeds_of h.1 h.2⟩

/-- To chapter 6 a zero is no digit: it ends the number before it and is stepped over. -/
theorem ten_read_as_one : ∃ self root self',
    Chapter06.parse (Parser.init (ascii "var x = 10;")) = .ok self ∧
      Chapter08.parse (Parser.init (ascii "var x = 10;")) = .ok (root, self') ∧
      IsBlock self.nodes self.nodes.lastPointer [⟨ascii "x", .number 1⟩] ∧
      IsBlock self'.nodes root [⟨ascii "x", .number (ascii "10")⟩] ∧
      Fits (lexemes (ascii "var x = 10;")) ∧ ¬ Succeeds (ascii "var x = 10;") := by
  have hrun : Descent.program chapter06 13 13 (lexemes (blankZeros (ascii "var x = 10;"))) =
      .ok [⟨ascii "x", .number 1⟩] := by
    decide +kernel
  have hrun' : Descent.program chapter08 13 13 (lexemes (ascii "var x = 10;")) =
      .ok [⟨ascii "x", .number (ascii "10")⟩] := by
    decide +kernel
  have hfits : Fits (lexemes (ascii "var x = 10;")) := by
    unfold Fits
    decide +kernel
  obtain ⟨self, h, hblock⟩ := Chapter06.parse_of_program
    (@reads_chapter06 (ascii "var x = 10;") (by decide)) (Descent.program_sound hrun)
  obtain ⟨root, self', h', hblock'⟩ := Chapter08.exists_block (ascii "var x = 10;") _ hrun'
  refine ⟨self, root, self', h, h', hblock, hblock', hfits, fun hsucceeds => ?_⟩
  obtain ⟨ss, hss, hvalues⟩ := (hsucceeds.1 hfits).2 self root self' h h'
  rw [hss.unique hblock'] at hvalues
  exact absurd (hvalues.unique hblock) (by decide)

end CompilingToAssembly
