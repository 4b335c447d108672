import CompilingToAssembly.Parser.Spelling

/-! How chapter 6 reads a text.

Its digit test excludes `0` and `9`. A `0` therefore belongs to no token: the lexer
steps over it wherever it stands, as over a blank, and reads the text as chapter 8
reads it with blanks for zeros (`reads_chapter06`). A `9` still selects the number
arm, which then takes no byte, and there the lexer stays (`nine_stuck`). -/
namespace CompilingToAssembly
open Library

def blankByte (c : UInt8) : UInt8 := if c == byte '0' then byte ' ' else c

def blankZeros (text : List UInt8) : List UInt8 := text.map blankByte

theorem blankByte_of_ne {c : UInt8} (h : c ≠ byte '0') : blankByte c = c := by
  simp [blankByte, h]

theorem blankZeros_append (s t : List UInt8) : blankZeros (s ++ t) = blankZeros s ++ blankZeros t :=
  List.map_append

theorem prong_blankByte (c : UInt8) : prong (blankByte c) = prong c := by
  by_cases h : c = byte '0'
  · subst h
    decide
  · rw [blankByte_of_ne h]

theorem blankByte_of_prong (c : UInt8) (h : prong c ≠ .skip) : blankByte c = c := by
  apply blankByte_of_ne
  rintro rfl
  exact h (by decide)

theorem isNumeric_blankByte (c : UInt8) (h : c ≠ byte '9') :
    Chapter08.isNumeric (blankByte c) = Chapter06.isNumeric c :=
  forall_byte (P := fun c => c ≠ byte '9' → Chapter08.isNumeric (blankByte c) = Chapter06.isNumeric c)
    (by decide +kernel) c h

theorem identifierByte_blankByte (c : UInt8) (h : c ≠ byte '9') :
    Lexer.identifierByte Chapter08.isNumeric (blankByte c) = Lexer.identifierByte Chapter06.isNumeric c := by
  by_cases hc : c = byte '0'
  · subst hc
    decide
  · have hnumeric := isNumeric_blankByte c h
    rw [blankByte_of_ne hc] at hnumeric ⊢
    rw [Lexer.identifierByte, Lexer.identifierByte, hnumeric]

/-- What a class without `0` and `9` takes is left as it is. -/
theorem blankByte_of_excludes {p : UInt8 → Bool} (h0 : p (byte '0') = false) (h9 : p (byte '9') = false)
    {c : UInt8} (h : p c = true) : blankByte c = c ∧ c ≠ byte '9' := by
  constructor
  · apply blankByte_of_ne
    rintro rfl
    rw [h0] at h
    cases h
  · rintro rfl
    rw [h9] at h
    cases h

/-- What chapter 6 takes into a word is neither `0` nor `9`. -/
theorem identifierByte_chapter06 (c : UInt8) (h : Lexer.identifierByte Chapter06.isNumeric c = true) :
    blankByte c = c ∧ c ≠ byte '9' := blankByte_of_excludes (by decide) (by decide) h

theorem isNumeric_chapter06 (c : UInt8) (h : Chapter06.isNumeric c = true) :
    blankByte c = c ∧ c ≠ byte '9' := blankByte_of_excludes (by decide) (by decide) h

theorem second_blankByte {ch : UInt8} {second : List UInt8} (h : prong ch = .operator second) (c : UInt8) :
    second.contains (blankByte c) = second.contains c ∧
      (second.contains c = true → blankByte c = c ∧ c ≠ byte '9') := by
  have htable := forall_byte (P := fun ch => (prong ch).second?.all (fun second =>
    second.all fun c => c != byte '0' && c != byte ' ' && c != byte '9') = true) (by decide +kernel) ch
  rw [h] at htable
  have hplain : ∀ c ∈ second, c ≠ byte '0' ∧ c ≠ byte ' ' ∧ c ≠ byte '9' := by
    simpa [Prong.second?, and_assoc] using htable
  by_cases hc : c = byte '0'
  · subst hc
    have hzero : byte '0' ∉ second := fun hmem => (hplain _ hmem).1 rfl
    have hblank : byte ' ' ∉ second := fun hmem => (hplain _ hmem).2.1 rfl
    have heq : blankByte (byte '0') = byte ' ' := rfl
    simp [heq, hzero, hblank]
  · have heq : blankByte c = c := by simp [blankByte, hc]
    rw [heq]
    exact ⟨rfl, fun hmem => ⟨rfl, (hplain c (List.contains_iff_mem.mp hmem)).2.2⟩⟩

/-! ### One token -/

theorem takeWhile_blankZeros {p q : UInt8 → Bool} {text : List UInt8}
    (h : ∀ c ∈ text, q (blankByte c) = p c) (hp : ∀ c, p c = true → blankByte c = c) :
    (blankZeros text).takeWhile q = text.takeWhile p ∧
      (blankZeros text).dropWhile q = blankZeros (text.dropWhile p) := by
  induction text with
  | nil => exact ⟨rfl, rfl⟩
  | cons c text ih =>
    obtain ⟨htake, hdrop⟩ := ih fun c hc => h c (List.mem_cons_of_mem _ hc)
    have hc := h c (List.mem_cons_self ..)
    have hcons : blankZeros (c :: text) = blankByte c :: blankZeros text := rfl
    rw [hcons]
    cases hpc : p c with
    | true =>
      rw [hpc] at hc
      rw [List.takeWhile_cons_of_pos hc, List.dropWhile_cons_of_pos hc, List.takeWhile_cons_of_pos hpc,
        List.dropWhile_cons_of_pos hpc, htake, hdrop, hp c hpc]
      exact ⟨rfl, rfl⟩
    | false =>
      have hc' : ¬ q (blankByte c) = true := by rw [hc, hpc]; decide
      have hpc' : ¬ p c = true := by rw [hpc]; decide
      rw [List.takeWhile_cons_of_neg hc', List.dropWhile_cons_of_neg hc',
        List.takeWhile_cons_of_neg hpc', List.dropWhile_cons_of_neg hpc']
      exact ⟨rfl, hcons.symm⟩

/-- A token and what is left, with blanks for the zeros in the latter. -/
def blankRest (found : Lexeme × List UInt8) : Lexeme × List UInt8 := (found.1, blankZeros found.2)

theorem first_blankZeros {ch : UInt8} {rest : List UInt8} (h : byte '9' ∉ ch :: rest) :
    first Chapter08.isNumeric (blankByte ch) (blankZeros rest) =
      (first Chapter06.isNumeric ch rest).map blankRest := by
  have hne : ∀ c ∈ ch :: rest, c ≠ byte '9' := fun c hc he => h (he ▸ hc)
  have hcons : blankByte ch :: blankZeros rest = blankZeros (ch :: rest) := rfl
  unfold first
  rw [prong_blankByte, hcons]
  cases hp : prong ch with
  | identifier =>
    obtain ⟨htake, hdrop⟩ := takeWhile_blankZeros (fun c hc => identifierByte_blankByte c (hne c hc))
      fun c hc => (identifierByte_chapter06 c hc).1
    rw [htake, hdrop]
    rfl
  | number =>
    obtain ⟨htake, hdrop⟩ := takeWhile_blankZeros (fun c hc => isNumeric_blankByte c (hne c hc))
      fun c hc => (isNumeric_chapter06 c hc).1
    rw [htake, hdrop]
    rfl
  | single kind =>
    rw [blankByte_of_prong ch (by rw [hp]; simp)]
    rfl
  | operator second =>
    rw [blankByte_of_prong ch (by rw [hp]; simp)]
    cases rest with
    | nil => rfl
    | cons c2 rest =>
      obtain ⟨hcontains, hsame⟩ := second_blankByte hp c2
      show (if second.contains (blankByte c2) = true then _ else _) =
        Option.map blankRest (if second.contains c2 = true then _ else _)
      rw [hcontains]
      by_cases hc : second.contains c2 = true
      · rw [if_pos hc, if_pos hc, (hsame hc).1]
        rfl
      · rw [if_neg hc, if_neg hc]
        rfl
  | skip => rfl

def blankReading (r : Reading) : Reading := ⟨blankZeros r.skipped, r.lexeme, blankZeros r.rest⟩

theorem read_blankZeros {text : List UInt8} (h : byte '9' ∉ text) :
    read Chapter08.isNumeric (blankZeros text) = (read Chapter06.isNumeric text).map blankReading := by
  induction text with
  | nil => rfl
  | cons ch rest ih =>
    have hcons : blankZeros (ch :: rest) = blankByte ch :: blankZeros rest := rfl
    rw [hcons, read, read, first_blankZeros h, ih fun hmem => h (List.mem_cons_of_mem _ hmem)]
    cases first Chapter06.isNumeric ch rest with
    | some found => rfl
    | none => cases read Chapter06.isNumeric rest <;> rfl

/-- **Chapter 6 reads a text without nines as chapter 8 reads it with blanks for zeros.** -/
theorem reads_blankZeros {text : List UInt8} {ls : List Lexeme} (h : Reads Chapter06.isNumeric text ls)
    (hnine : byte '9' ∉ text) : Reads Chapter08.isNumeric (blankZeros text) ls := by
  induction h with
  | done hr => exact .done (by rw [read_blankZeros hnine, hr]; rfl)
  | @step text r ls hr hne _ ih =>
    have hread := read_blankZeros hnine
    rw [hr] at hread
    refine .step (r := blankReading r) hread hne (ih fun hmem => hnine ?_)
    rw [read_append hr]
    exact List.mem_append_right _ (List.mem_append_right _ hmem)
  | @stuck text r hr he =>
    have hread := read_blankZeros hnine
    rw [hr] at hread
    exact absurd he (read_ne_nil (r := blankReading r) hread)

theorem reads_chapter06 {text : List UInt8} (hnine : byte '9' ∉ text) :
    Reads Chapter06.isNumeric text (lexemes (blankZeros text)) := by
  obtain ⟨ls, hls⟩ := @exists_reads Chapter06.isNumeric text
  rw [lexemes_eq (reads_blankZeros hls hnine)]
  exact hls

/-! ### Nines -/

theorem read_chapter06_nine {text : List UInt8} {r : Reading} (h : read Chapter06.isNumeric text = some r) :
    byte '9' ∉ r.lexeme.text := by
  intro hmem
  obtain ⟨_, ch, tail, _, hf⟩ := read_eq_some h
  have hnine : prong (byte '9') = .number := by decide
  rcases first_cases hf with ⟨hp, hl, _⟩ | ⟨_, hl, _⟩ | ⟨kind, hp, hl, _⟩ |
    ⟨second, hp, ⟨hl, _⟩ | ⟨c2, hc2, hl, _⟩⟩
  · rw [hl] at hmem
    rcases List.mem_cons.mp hmem with he | hmem
    · rw [← he, hnine] at hp
      cases hp
    · exact (identifierByte_chapter06 _ (List.mem_takeWhile_imp hmem)).2 rfl
  · rw [hl] at hmem
    exact (isNumeric_chapter06 _ (List.mem_takeWhile_imp hmem)).2 rfl
  · rw [hl] at hmem
    rw [← List.mem_singleton.mp hmem, hnine] at hp
    cases hp
  · rw [hl] at hmem
    rw [← List.mem_singleton.mp hmem, hnine] at hp
    cases hp
  · rw [hl] at hmem
    rcases List.mem_cons.mp hmem with he | hmem
    · rw [← he, hnine] at hp
      cases hp
    · rw [← List.mem_singleton.mp hmem] at hc2
      exact ((second_blankByte hp _).2 hc2).2 rfl

/-- At a nine chapter 6 reads an empty number. -/
theorem nine_stuck {text : List UInt8} {ls : List Lexeme} (h : Reads Chapter06.isNumeric text ls)
    (hnine : byte '9' ∈ text) : ⟨.Number, []⟩ ∈ ls := by
  have hprong : prong (byte '9') ≠ .skip := by decide
  induction h with
  | done hr => exact absurd (read_eq_none.mp hr _ hnine) hprong
  | @step text r ls hr _ _ ih =>
    rw [read_append hr] at hnine
    rcases List.mem_append.mp hnine with hskipped | hnine
    · exact absurd ((read_eq_some hr).1 _ hskipped) hprong
    · rcases List.mem_append.mp hnine with htext | hrest
      · exact absurd htext (read_chapter06_nine hr)
      · exact List.mem_cons_of_mem _ (ih hrest)
  | @stuck text r hr he =>
    obtain ⟨_, ch, tail, _, hf⟩ := read_eq_some hr
    rw [(first_text_nil hf he).2]
    exact List.mem_singleton_self _

end CompilingToAssembly
