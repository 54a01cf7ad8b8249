import Alt.Library.Base64
import Alt.Server.CommitSign
import Alt.Wire.Fetch

namespace Alt.Server.SignedHeader

open Alt.Library HeaderBlock List

/-!
# What is signed and what is read (`alt-cli/src/commit_sign.rs`, `alt-sign/src/lib.rs`)

The code that signs finds the `alt-sig` line by its bytes; the code that reads commits knows that a line
that begins with a space goes on the header before it.

* `altSigLine`, `embedAltSig` — the header line, and where it is put;
* `extract_embed` — what is put in is taken out again, and the payload is the commit that was signed;
* `signature_covers_what_is_read` — besides, taking the line out takes exactly one header from what is read
  just if no line continues it.
-/

/-! ### The text of a signature -/

/-- `b as char`, for each byte. -/
def asText (bytes : Bytes) : String := String.ofList (bytes.map fun b => Char.ofNat b.toNat)

/-- `Sig::to_text`. -/
def sigToText (sig : ByteArr 64) : String := "alt-sig-ed25519:" ++ asText (Base64.encode sig.val) ++ "\n"

/-- `Sig::from_text`; only that it fails is looked at, not why. -/
def sigFromText (text : String) : Except String (ByteArr 64) :=
  match Wire.stripPrefix "alt-sig-ed25519:" (Wire.trim text) with
  | none => .error "malformed key/sig prefix"
  | some rest =>
    match Base64.decode (utf8 rest) with
    | none => .error "malformed base64 body"
    | some raw => if h : raw.length = 64 then .ok ⟨raw, h⟩ else .error "invalid Ed25519 key: signature length"

/-- Ed25519 signatures in their text form. -/
def ed25519 (Key : Type) (verify : Key → Bytes → ByteArr 64 → Except String Unit) : Signing :=
  ⟨Key, ByteArr 64, sigFromText, verify⟩

/-- The header line, with its newline. -/
def altSigLine (principal : String) (sig : ByteArr 64) : Bytes :=
  utf8 ("alt-sig " ++ principal ++ " " ++ Wire.trim (sigToText sig) ++ "\n")

/-- Puts a line in front of the blank line behind the headers. -/
def embedAltSig (bytes line : Bytes) : Option Bytes :=
  (findSeparator bytes).map fun separator => bytes.take separator ++ line ++ bytes.drop separator

variable {bytes : Bytes}

theorem utf8_asText (h : ∀ b ∈ bytes, b < 0x80) : utf8 (asText bytes) = bytes := by
  rw [asText, utf8_ofList]
  induction bytes with
  | nil => rfl
  | cons b bytes ih =>
    rw [map_cons, flatMap_cons, utf8EncodeChar_ascii (h b mem_cons_self),
      ih fun b' hb' => h b' (mem_cons_of_mem b hb')]
    rfl

/-- A text form without what `trim` takes off. -/
def sigWord (sig : ByteArr 64) : String := "alt-sig-ed25519:" ++ asText (Base64.encode sig.val)

theorem not_blank_of_graphic {c : Char} (h : 0x20 < c.toNat ∧ c.toNat < 0x80) :
    Wire.isWhitespace c = false := by
  simp [Wire.isWhitespace]
  omega

theorem toNat_asText (h : ∀ b ∈ bytes, 0x20 < b ∧ b < 0x80) :
    ∀ c ∈ (asText bytes).toList, 0x20 < c.toNat ∧ c.toNat < 0x80 := by
  intro c hc
  rw [asText, String.toList_ofList] at hc
  obtain ⟨b, hb, rfl⟩ := mem_map.mp hc
  rw [toNat_ofNat_byte]
  exact ⟨UInt8.lt_iff_toNat_lt.mp (h b hb).1, UInt8.lt_iff_toNat_lt.mp (h b hb).2⟩

theorem graphic_prefix : ∀ c ∈ "alt-sig-ed25519:".toList, 0x20 < c.toNat ∧ c.toNat < 0x80 := by
  have hword : "alt-sig-ed25519:".toList = _ := String.toList_ofList
  rw [hword]
  refine forall_iff_forall_mem.mp ?_
  decide

theorem graphic_sigWord (sig : ByteArr 64) :
    ∀ c ∈ (sigWord sig).toList, 0x20 < c.toNat ∧ c.toNat < 0x80 := by
  intro c hc
  have hparts : (sigWord sig).toList = _ ++ _ := String.toList_append
  rw [hparts] at hc
  rcases mem_append.mp hc with hc | hc
  · exact graphic_prefix c hc
  · exact toNat_asText (Base64.ascii_of_encode sig.val) c hc

theorem trim_sigToText (sig : ByteArr 64) : Wire.trim (sigToText sig) = sigWord sig := by
  have hword : ∀ c ∈ (sigWord sig).toList, Wire.isWhitespace c = false := fun c hc =>
    not_blank_of_graphic (graphic_sigWord sig c hc)
  have hlist : (sigToText sig).toList = (sigWord sig).toList ++ ['\n'] := by
    have htext : sigToText sig = sigWord sig ++ "\n" := rfl
    rw [htext, String.toList_append]
    rfl
  have hclean := Wire.trim_of_forall hword
  obtain ⟨first, rest, hcons⟩ : ∃ first rest, (sigWord sig).toList = first :: rest := by
    have hlit : "alt-sig-ed25519:".toList = _ := String.toList_ofList
    have hparts : (sigWord sig).toList = "alt-sig-ed25519:".toList ++ _ := String.toList_append
    exact ⟨_, _, hparts.trans (congrArg (· ++ _) hlit)⟩
  have hfirst : Wire.isWhitespace first = false := hword first (by rw [hcons]; exact mem_cons_self)
  have hlf : Wire.isWhitespace '\n' = true := by decide
  rw [Wire.trim, hcons, dropWhile_cons_of_neg (by simpa using hfirst), ← hcons] at hclean
  rw [Wire.trim, hlist, hcons, cons_append, dropWhile_cons_of_neg (by simpa using hfirst),
    ← cons_append, ← hcons, reverse_append, reverse_singleton, singleton_append,
    dropWhile_cons_of_pos hlf]
  exact hclean

theorem sigFromText_sigWord (sig : ByteArr 64) : sigFromText (sigWord sig) = .ok sig := by
  have hword : ∀ c ∈ (sigWord sig).toList, Wire.isWhitespace c = false := fun c hc =>
    not_blank_of_graphic (graphic_sigWord sig c hc)
  have hstrip : Wire.stripPrefix "alt-sig-ed25519:" (sigWord sig) = some (asText (Base64.encode sig.val)) :=
    Wire.stripPrefix_append _ _
  have htext := utf8_asText fun b hb => (Base64.ascii_of_encode sig.val b hb).2
  simp only [sigFromText, Wire.trim_of_forall hword, hstrip, htext, Base64.decode_encode, sig.property,
    dite_true]

/-! ### Lines -/

/-- A line with its newline. -/
def IsLine (line : Bytes) : Prop := ∃ content, line = content ++ [lf] ∧ lf ∉ content

/-- Header lines: only the first may be blank, since the block ends at the first blank line behind another
    line. -/
structure IsBlock (lines : List Bytes) : Prop where
  ne_nil : lines ≠ []
  line : ∀ line ∈ lines, IsLine line
  not_blank : ∀ line ∈ lines.tail, line ≠ [lf]

variable {content : Bytes}

theorem findSeparator_line (h : lf ∉ content) (rest : Bytes) :
    findSeparator (content ++ lf :: rest) =
      if rest.head? = some lf then some (content.length + 1)
      else (findSeparator rest).map (· + (content.length + 1)) := by
  induction content with
  | nil =>
    cases rest with
    | nil => rfl
    | cons b rest =>
      simp only [nil_append, findSeparator, head?_cons, Option.some.injEq, length_nil]
      by_cases hb : b = lf
      · rw [if_pos hb, if_pos ⟨rfl, hb⟩]
      · rw [if_neg hb, if_neg fun h => hb h.2]
  | cons a content ih =>
    have ha : a ≠ 10 := fun heq => h (heq ▸ mem_cons_self)
    have hcontent := ih fun hmem => h (mem_cons_of_mem a hmem)
    have hstep : findSeparator (a :: (content ++ lf :: rest))
        = (findSeparator (content ++ lf :: rest)).map (· + 1) := by
      cases content with
      | nil => exact if_neg fun hab => ha hab.1
      | cons b content => exact if_neg fun hab => ha hab.1
    rw [cons_append, hstep, hcontent]
    split
    · rfl
    · rw [Option.map_map]
      congr 1

theorem findSeparator_no_line (h : lf ∉ content) : findSeparator content = none := by
  induction content with
  | nil => rfl
  | cons a content ih =>
    have ha : a ≠ 10 := fun heq => h (heq ▸ mem_cons_self)
    have hcontent := ih fun hmem => h (mem_cons_of_mem a hmem)
    cases content with
    | nil => rfl
    | cons b content => rw [findSeparator, if_neg fun hab => ha hab.1, hcontent]; rfl

variable {line : Bytes}

theorem IsLine.head (h : IsLine line) (rest : Bytes) :
    (line ++ rest).head? = some lf ↔ line = [lf] := by
  obtain ⟨content, rfl, hlf⟩ := h
  cases content with
  | nil => simp
  | cons b content =>
    have hb : b ≠ lf := fun heq => hlf (heq ▸ mem_cons_self)
    simp [hb]

variable {lines : List Bytes}

theorem findSeparator_block (h : IsBlock lines) (message : Bytes) :
    findSeparator (lines.flatten ++ lf :: message) = some lines.flatten.length := by
  obtain ⟨hne, hline, hblank⟩ := h
  induction lines with
  | nil => exact absurd rfl hne
  | cons line lines ih =>
    obtain ⟨content, rfl, hlf⟩ := hline line mem_cons_self
    have hcat : ((content ++ [lf]) :: lines).flatten ++ lf :: message
        = content ++ lf :: (lines.flatten ++ lf :: message) := by simp
    rw [hcat, findSeparator_line hlf]
    cases lines with
    | nil => simp
    | cons next lines =>
      have hnext := hline next (by simp)
      have hhead : ¬((next :: lines).flatten ++ lf :: message).head? = some lf := by
        rw [flatten_cons, append_assoc, hnext.head]
        exact hblank next mem_cons_self
      rw [if_neg hhead, ih (by simp) (fun l hl => hline l (mem_cons_of_mem _ hl))
        fun l hl => hblank l (mem_cons_of_mem _ hl)]
      simp only [Option.map_some, flatten_cons, length_append, length_singleton]
      congr 1
      omega

/-- A commit is its header lines, the blank line, and the message. -/
theorem block_of_findSeparator {separator : Nat} (h : findSeparator bytes = some separator) :
    ∃ lines message, IsBlock lines ∧ bytes = lines.flatten ++ lf :: message ∧
      separator = lines.flatten.length := by
  induction hn : bytes.length using Nat.strong_induction_on generalizing bytes separator with
  | _ n ih =>
    subst hn
    cases hsplit : splitFirst lf bytes with
    | none => rw [findSeparator_no_line (splitFirst_eq_none.mp hsplit)] at h; cases h
    | some parts =>
      obtain ⟨content, rest⟩ := parts
      obtain ⟨rfl, hlf⟩ := splitFirst_eq_some.mp hsplit
      rw [findSeparator_line hlf] at h
      split at h
      · rename_i hhead
        obtain ⟨message, rfl⟩ := head?_eq_some_iff.mp hhead
        cases h
        exact ⟨[content ++ [lf]], message, ⟨by simp, by simpa using ⟨content, rfl, hlf⟩, by simp⟩, by simp,
          by simp⟩
      · rename_i hhead
        obtain ⟨separator', hrest, rfl⟩ := Option.map_eq_some_iff.mp h
        obtain ⟨lines, message, ⟨hne, hline, hblank⟩, rfl, rfl⟩ :=
          ih rest.length (by simp; omega) hrest rfl
        refine ⟨(content ++ [lf]) :: lines, message, ⟨by simp, ?_, ?_⟩, by simp, by simp; omega⟩
        · intro line hmem
          rcases mem_cons.mp hmem with rfl | hmem
          · exact ⟨content, rfl, hlf⟩
          · exact hline line hmem
        · intro line hmem
          rw [tail_cons] at hmem
          cases lines with
          | nil => exact absurd rfl hne
          | cons next lines =>
            rcases mem_cons.mp hmem with rfl | hmem
            · intro hblankLine
              refine hhead ?_
              rw [flatten_cons, append_assoc, (hline line mem_cons_self).head]
              exact hblankLine
            · exact hblank line hmem

theorem linesOf_line (h : lf ∉ content) (rest : Bytes) :
    linesOf (content ++ lf :: rest) = (content ++ [lf]) :: linesOf rest := by
  induction content with
  | nil => rfl
  | cons a content ih =>
    have ha : a ≠ 10 := fun heq => h (heq ▸ mem_cons_self)
    rw [cons_append, linesOf, if_neg ha, ih fun hmem => h (mem_cons_of_mem a hmem)]
    rfl

theorem linesOf_flatten (h : ∀ line ∈ lines, IsLine line) (rest : Bytes) :
    linesOf (lines.flatten ++ rest) = lines ++ linesOf rest := by
  induction lines with
  | nil => rfl
  | cons line lines ih =>
    obtain ⟨content, rfl, hlf⟩ := h line mem_cons_self
    have hcat : ((content ++ [lf]) :: lines).flatten ++ rest = content ++ lf :: (lines.flatten ++ rest) := by
      simp
    rw [hcat, linesOf_line hlf, ih fun l hl => h l (mem_cons_of_mem _ hl), cons_append]

/-! ### The line that is found -/

def altSigWord : Bytes := utf8 "alt-sig "

theorem locateAltSigLine_cons_of_pos (h : altSigWord.isPrefixOf line) (lines : List Bytes) :
    locateAltSigLine (line :: lines) = some ([], line, lines.flatten) := if_pos h

theorem locateAltSigLine_cons_of_neg (h : ¬altSigWord.isPrefixOf line) (lines : List Bytes) :
    locateAltSigLine (line :: lines)
      = (locateAltSigLine lines).map fun (before, found, behind) => (line ++ before, found, behind) :=
  if_neg h

theorem locateAltSigLine_append {front : List Bytes} (hfront : ∀ line ∈ front, ¬altSigWord.isPrefixOf line)
    {found : Bytes} (hfound : altSigWord.isPrefixOf found) (rest : List Bytes) :
    locateAltSigLine (front ++ found :: rest) = some (front.flatten, found, rest.flatten) := by
  induction front with
  | nil => exact locateAltSigLine_cons_of_pos hfound rest
  | cons line front ih =>
    rw [cons_append, locateAltSigLine_cons_of_neg (hfront line mem_cons_self),
      ih fun l hl => hfront l (mem_cons_of_mem line hl)]
    rfl

theorem exists_of_locateAltSigLine {before found behind : Bytes}
    (h : locateAltSigLine lines = some (before, found, behind)) : ∃ front rest,
    lines = front ++ found :: rest ∧ (∀ line ∈ front, ¬altSigWord.isPrefixOf line) ∧
      altSigWord.isPrefixOf found := by
  induction lines generalizing before with
  | nil => cases h
  | cons line lines ih =>
    by_cases hline : altSigWord.isPrefixOf line
    · rw [locateAltSigLine_cons_of_pos hline] at h
      cases h
      exact ⟨[], lines, rfl, by simp, hline⟩
    · rw [locateAltSigLine_cons_of_neg hline] at h
      obtain ⟨⟨before', found', behind'⟩, hrest, hpair⟩ := Option.map_eq_some_iff.mp h
      cases hpair
      obtain ⟨front, rest, rfl, hfront, hfound⟩ := ih hrest
      refine ⟨line :: front, rest, rfl, ?_, hfound⟩
      intro l hl
      rcases mem_cons.mp hl with rfl | hl
      · exact hline
      · exact hfront l hl

theorem not_mem_of_locateAltSigLine (h : locateAltSigLine lines = none) :
    ∀ line ∈ lines, ¬altSigWord.isPrefixOf line := by
  induction lines with
  | nil => simp
  | cons line lines ih =>
    have hline : ¬altSigWord.isPrefixOf line := by
      intro hline
      rw [locateAltSigLine_cons_of_pos hline] at h
      cases h
    rw [locateAltSigLine_cons_of_neg hline, Option.map_eq_none_iff] at h
    intro l hl
    rcases mem_cons.mp hl with rfl | hl
    · exact hline
    · exact ih h l hl

/-! ### Taking the line out -/

variable {S : Signing}

/-- The header line with this value. -/
def headerLine (field : Bytes) : Bytes := altSigWord ++ field ++ [lf]

theorem isLine_headerLine {field : Bytes} (h : lf ∉ field) : IsLine (headerLine field) := by
  refine ⟨altSigWord ++ field, rfl, ?_⟩
  intro hmem
  rcases mem_append.mp hmem with hword | hfield
  · revert hword
    decide
  · exact h hfield

theorem isPrefixOf_headerLine (field : Bytes) : altSigWord.isPrefixOf (headerLine field) := by
  rw [List.isPrefixOf_iff_prefix]
  exact ⟨field ++ [lf], by rw [headerLine, append_assoc]⟩

theorem headerLine_of_isPrefixOf (hline : IsLine line) (h : altSigWord.isPrefixOf line) :
    ∃ field, line = headerLine field ∧ lf ∉ field := by
  obtain ⟨content, rfl, hlf⟩ := hline
  obtain ⟨tail, htail⟩ := isPrefixOf_iff_prefix.mp h
  rcases eq_nil_or_concat tail with rfl | ⟨field, last, rfl⟩
  · rw [append_nil] at htail
    have hlast := congrArg List.getLast? htail
    rw [getLast?_concat] at hlast
    have hword : altSigWord.getLast? = some sp := by decide
    rw [hword] at hlast
    exact absurd (Option.some.inj hlast) lf_ne_sp.symm
  · rw [concat_eq_append, ← append_assoc] at htail
    obtain ⟨rfl, hlast⟩ := append_inj' htail rfl
    refine ⟨field, ?_, fun hmem => hlf (mem_append_right _ hmem)⟩
    rw [headerLine, ← hlast]

/-- What a commit with such a line is taken apart into. -/
theorem extractAltSig_block {front rest : List Bytes} {field : Bytes}
    (hblock : IsBlock (front ++ headerLine field :: rest))
    (hfront : ∀ line ∈ front, ¬altSigWord.isPrefixOf line) (message : Bytes) :
    extractAltSig S ((front ++ headerLine field :: rest).flatten ++ lf :: message) =
      match parseAltSig S field with
      | .error e => .error e
      | .ok (principal, sig) =>
        .ok (some ⟨principal, sig, front.flatten ++ rest.flatten ++ lf :: message⟩) := by
  have hlines := linesOf_flatten hblock.line []
  rw [append_nil] at hlines
  have hlast : (headerLine field).getLast? = some 10 := getLast?_concat
  have hword : (altSigWord ++ field).dropPrefix? (utf8 "alt-sig ") = some field :=
    dropPrefix?_append_of_beq field (BEq.rfl : utf8 "alt-sig " == utf8 "alt-sig ")
  rw [extractAltSig, findSeparator_block hblock]
  simp only [take_left', drop_left', hlines, linesOf, append_nil]
  rw [locateAltSigLine_append hfront (isPrefixOf_headerLine field)]
  simp only [hlast, if_true]
  cases hsig : parseAltSig S field <;> simp only [headerLine, dropLast_concat, hword, hsig]

/-- A commit in which there is such a line. -/
theorem block_of_extractAltSig {c : Bytes} {a : AltSig S} (h : extractAltSig S c = .ok (some a)) :
    ∃ front field rest message, IsBlock (front ++ headerLine field :: rest) ∧ lf ∉ field ∧
      (∀ line ∈ front, ¬altSigWord.isPrefixOf line) ∧
      c = (front ++ headerLine field :: rest).flatten ++ lf :: message ∧
      a.canonical = front.flatten ++ rest.flatten ++ lf :: message := by
  cases hsep : findSeparator c with
  | none => rw [extractAltSig, hsep] at h; cases h
  | some separator =>
    obtain ⟨lines, message, hblock, rfl, rfl⟩ := block_of_findSeparator hsep
    have hlines := linesOf_flatten hblock.line []
    rw [append_nil] at hlines
    cases hlocate : locateAltSigLine lines with
    | none =>
      rw [extractAltSig, hsep] at h
      simp only [take_left', hlines, linesOf, append_nil, hlocate] at h
      cases h
    | some parts =>
      obtain ⟨before, found, behind⟩ := parts
      obtain ⟨front, rest, rfl, hfront, hfound⟩ := exists_of_locateAltSigLine hlocate
      obtain ⟨field, rfl, hfield⟩ := headerLine_of_isPrefixOf (hblock.line found (by simp)) hfound
      refine ⟨front, field, rest, message, hblock, hfield, hfront, rfl, ?_⟩
      rw [extractAltSig_block hblock hfront] at h
      split at h
      · cases h
      · cases h
        rfl

/-- A commit without such a line. -/
theorem block_of_extractAltSig_none {b : Bytes} (h : extractAltSig S b = .ok none) : ∃ lines message,
    IsBlock lines ∧ (∀ line ∈ lines, ¬altSigWord.isPrefixOf line) ∧ b = lines.flatten ++ lf :: message := by
  cases hsep : findSeparator b with
  | none => rw [extractAltSig, hsep] at h; cases h
  | some separator =>
    obtain ⟨lines, message, hblock, rfl, rfl⟩ := block_of_findSeparator hsep
    have hlines := linesOf_flatten hblock.line []
    rw [append_nil] at hlines
    cases hlocate : locateAltSigLine lines with
    | none => exact ⟨lines, message, hblock, not_mem_of_locateAltSigLine hlocate, rfl⟩
    | some parts =>
      obtain ⟨before, found, behind⟩ := parts
      obtain ⟨front, rest, rfl, hfront, hfound⟩ := exists_of_locateAltSigLine hlocate
      obtain ⟨field, rfl, hfield⟩ := headerLine_of_isPrefixOf (hblock.line found (by simp)) hfound
      rw [extractAltSig_block hblock hfront] at h
      split at h
      · cases h
      · cases h

/-! ### What is put in is taken out -/

section RoundTrip

variable {principal : String} (sig : ByteArr 64)

/-- The value of the header line that is put in. -/
def altSigField (principal : String) (sig : ByteArr 64) : Bytes := utf8 principal ++ sp :: utf8 (sigWord sig)

theorem altSigLine_eq (principal : String) :
    altSigLine principal sig = headerLine (altSigField principal sig) := by
  have hsp : utf8 " " = [sp] := by decide
  have hlf : utf8 "\n" = [lf] := by decide
  simp only [altSigLine, trim_sigToText, utf8_append, hsp, hlf, headerLine, altSigField, altSigWord]
  simp

theorem lf_not_mem_altSigField (h : '\n' ∉ principal.toList) : lf ∉ altSigField principal sig := by
  intro hmem
  rcases mem_append.mp hmem with hprincipal | hrest
  · exact h ((mem_utf8_ascii (by decide)).mp hprincipal)
  · rcases mem_cons.mp hrest with heq | hsig
    · exact lf_ne_sp heq
    · exact absurd (graphic_sigWord sig _ ((mem_utf8_ascii (by decide)).mp hsig)).1 (by decide)

theorem parseAltSig_altSigField {Key : Type} {verify : Key → Bytes → ByteArr 64 → Except String Unit}
    (h : ' ' ∉ principal.toList) :
    parseAltSig (ed25519 Key verify) (altSigField principal sig) = .ok (principal, sig) := by
  have hsp : sp ∉ utf8 principal := fun hmem => h ((mem_utf8_ascii (by decide)).mp hmem)
  rw [parseAltSig, altSigField]
  have hsplit := splitFirst_append hsp (utf8 (sigWord sig))
  rw [sp] at hsplit
  rw [sp, hsplit]
  simp only [fromUtf8_utf8, ed25519, sigFromText_sigWord]

end RoundTrip

theorem IsBlock.concat (h : IsBlock lines) (hline : IsLine line) (hblank : line ≠ [lf]) :
    IsBlock (lines ++ [line]) := by
  refine ⟨by simp, ?_, ?_⟩
  · intro l hl
    rcases mem_append.mp hl with hl | hl
    · exact h.line l hl
    · rw [mem_singleton.mp hl]
      exact hline
  · intro l hl
    rw [tail_append_of_ne_nil h.ne_nil] at hl
    rcases mem_append.mp hl with hl | hl
    · exact h.not_blank l hl
    · rw [mem_singleton.mp hl]
      exact hblank

/-- **What is put in is taken out.** -/
theorem extract_embed {Key : Type} {verify : Key → Bytes → ByteArr 64 → Except String Unit} {b : Bytes}
    (hb : extractAltSig (ed25519 Key verify) b = .ok none) {principal : String}
    (hspace : ' ' ∉ principal.toList) (hline : '\n' ∉ principal.toList) (sig : ByteArr 64) :
    ∃ c, embedAltSig b (altSigLine principal sig) = some c ∧
      extractAltSig (ed25519 Key verify) c = .ok (some ⟨principal, sig, b⟩) := by
  obtain ⟨lines, message, hblock, hnone, rfl⟩ := block_of_extractAltSig_none hb
  have hlf := lf_not_mem_altSigField sig hline
  have hblank : headerLine (altSigField principal sig) ≠ [lf] := by
    intro heq
    have hlength := congrArg List.length heq
    have hword : altSigWord.length = 8 := by decide
    simp only [headerLine, length_append, length_singleton, hword] at hlength
    omega
  have hextract := extractAltSig_block (S := ed25519 Key verify)
    (hblock.concat (isLine_headerLine hlf) hblank) hnone message
  rw [parseAltSig_altSigField sig hspace] at hextract
  refine ⟨_, by rw [embedAltSig, findSeparator_block hblock, Option.map_some], ?_⟩
  rw [altSigLine_eq, take_left, drop_left]
  simpa using hextract

/-! ### Reading the headers -/

def altSigName : Bytes := utf8 "alt-sig"

theorem isName_altSigName : IsName altSigName := ⟨by decide, by decide, by decide⟩

theorem parseFrom_headerLine (headers : List (Bytes × Bytes)) {field : Bytes} (h : lf ∉ field)
    (rest : Bytes) :
    parseFrom headers (headerLine field ++ rest) = parseFrom (headers ++ [(altSigName, field)]) rest := by
  rw [← parseFrom_line headers isName_altSigName h rest]
  have hword : altSigWord = altSigName ++ [sp] := by decide
  simp [headerLine, hword]

variable {headers : List (Bytes × Bytes)}

/-- Other lines read as other headers, or not at all. -/
theorem parseFrom_front {front : List Bytes} (hline : ∀ line ∈ front, IsLine line ∧ line ≠ [lf])
    (hother : ∀ line ∈ front, ¬altSigWord.isPrefixOf line)
    (hnames : ∀ header ∈ headers, header.1 ≠ altSigName) :
    (∃ e, ∀ rest, parseFrom headers (front.flatten ++ rest) = .error e) ∨
      ∃ more, (∀ header ∈ more, header.1 ≠ altSigName) ∧
        ∀ rest, parseFrom headers (front.flatten ++ rest) = parseFrom more rest := by
  induction front generalizing headers with
  | nil => exact .inr ⟨headers, hnames, fun rest => rfl⟩
  | cons line front ih =>
    obtain ⟨⟨content, rfl, hlf⟩, hblank⟩ := hline line mem_cons_self
    have hrest := fun {headers' : List (Bytes × Bytes)} =>
      @ih headers' (fun l hl => hline l (mem_cons_of_mem _ hl))
        (fun l hl => hother l (mem_cons_of_mem _ hl))
    cases content with
    | nil => exact absurd rfl hblank
    | cons b content =>
      have hb : b ≠ lf := fun heq => hlf (heq ▸ mem_cons_self)
      have hcat : ∀ rest, ((b :: content ++ [lf]) :: front).flatten ++ rest
          = b :: (content ++ lf :: (front.flatten ++ rest)) := by simp
      have hsplit : ∀ rest, splitFirst lf (b :: (content ++ lf :: (front.flatten ++ rest)))
          = some (b :: content, front.flatten ++ rest) := fun rest => splitFirst_append hlf _
      by_cases hsp : b = sp
      · cases hlast : continueLast headers content with
        | none =>
          refine .inl ⟨.headers "continuation before any header", fun rest => ?_⟩
          rw [hcat, parseFrom_split headers hb (hsplit rest), if_pos hsp, tail_cons, hlast]
        | some headers' =>
          have hnames' : ∀ header ∈ headers', header.1 ≠ altSigName := by
            obtain ⟨last, hmem, rfl⟩ := Option.map_eq_some_iff.mp hlast
            intro header hheader
            rcases mem_append.mp hheader with hold | hnew
            · exact hnames header (dropLast_subset headers hold)
            · rw [mem_singleton.mp hnew]
              exact hnames last (mem_of_getLast? hmem)
          have hall : ∀ rest, parseFrom headers (((b :: content ++ [lf]) :: front).flatten ++ rest)
              = parseFrom headers' (front.flatten ++ rest) := by
            intro rest
            rw [hcat, parseFrom_split headers hb (hsplit rest), if_pos hsp, tail_cons, hlast]
          simpa only [hall] using hrest hnames'
      · cases hword : splitFirst sp (b :: content) with
        | none =>
          refine .inl ⟨.headers "header line without space", fun rest => ?_⟩
          rw [hcat, parseFrom_split headers hb (hsplit rest), if_neg hsp, hword]
        | some header =>
          obtain ⟨name, value⟩ := header
          have hnames' : ∀ header ∈ headers ++ [(name, value)], header.1 ≠ altSigName := by
            intro header hheader
            rcases mem_append.mp hheader with hold | hnew
            · exact hnames header hold
            · rw [mem_singleton.mp hnew]
              rintro rfl
              refine hother _ mem_cons_self ?_
              obtain ⟨hcontent, -⟩ := splitFirst_eq_some.mp hword
              have hprefix : altSigWord = altSigName ++ [sp] := by decide
              rw [List.isPrefixOf_iff_prefix, hcontent, hprefix]
              exact ⟨value ++ [lf], by simp⟩
          have hall : ∀ rest, parseFrom headers (((b :: content ++ [lf]) :: front).flatten ++ rest)
              = parseFrom (headers ++ [(name, value)]) (front.flatten ++ rest) := by
            intro rest
            rw [hcat, parseFrom_split headers hb (hsplit rest), if_neg hsp, hword]
          simpa only [hall] using hrest hnames'

variable {name : Bytes}

/-- The first header stays the first; lines are only put behind its value. -/
theorem parseFrom_first {value : Bytes} {rest : Bytes} {block : HeaderBlock}
    (h : parseFrom ((name, value) :: headers) rest = .ok block) :
    ∃ tail more, block.headers = (name, value ++ tail) :: more := by
  generalize hall : (name, value) :: headers = all at h
  fun_induction parseFrom all rest generalizing value headers with
  | case1 =>
    cases h
    exact ⟨[], headers, by rw [← hall, append_nil]⟩
  | case2 =>
    cases h
    exact ⟨[], headers, by rw [← hall, append_nil]⟩
  | case3 => cases h
  | case4 => cases h
  | case5 all tail line rest headers' hcont hb hsplit ih =>
    subst hall
    rcases eq_nil_or_concat headers with rfl | ⟨init, last, rfl⟩
    · have hstep := continueLast_concat [] name value line.tail
      rw [nil_append, nil_append, hcont] at hstep
      obtain ⟨tail', more, hmore⟩ := ih (Option.some.inj hstep).symm h
      exact ⟨lf :: line.tail ++ tail', more, by rw [hmore]; simp⟩
    · have hstep := continueLast_concat ((name, value) :: init) last.1 last.2 line.tail
      rw [concat_eq_append] at hcont
      have hsome := hcont.symm.trans hstep
      exact ih (Option.some.inj hsome).symm h
  | case6 => cases h
  | case7 all b tail hb line rest hsplit hsp name' value' hword ih =>
    subst hall
    exact ih rfl h

/-- Whether lines can be read does not depend on the headers before them, once there are any. -/
theorem parseFrom_error {headers' : List (Bytes × Bytes)} {rest : Bytes} {e : ObjectParseError}
    (hne : headers ≠ []) (hne' : headers' ≠ []) (h : parseFrom headers rest = .error e) :
    parseFrom headers' rest = .error e := by
  fun_induction parseFrom headers rest generalizing headers' with
  | case1 => cases h
  | case2 => cases h
  | case3 headers b tail hb hsplit => rw [parseFrom_unsplit headers' hb hsplit, ← h]
  | case4 headers tail line rest hnone hb hsplit =>
    rw [continueLast, Option.map_eq_none_iff, getLast?_eq_none_iff] at hnone
    exact absurd hnone hne
  | case5 headers tail line rest headers₁ hcont hb hsplit ih =>
    obtain ⟨last, -, rfl⟩ := Option.map_eq_some_iff.mp hcont
    obtain ⟨init, last', rfl⟩ := (eq_nil_or_concat headers').resolve_left hne'
    rw [concat_eq_append, parseFrom_split _ hb hsplit, if_pos rfl,
      continueLast_concat init last'.1 last'.2]
    exact ih (by simp) (by simp) h
  | case6 headers b tail hb line rest hsplit hsp hnone =>
    rw [parseFrom_split headers' hb hsplit, if_neg hsp, hnone, ← h]
  | case7 headers b tail hb line rest hsplit hsp name value hword ih =>
    rw [parseFrom_split headers' hb hsplit, if_neg hsp, hword]
    exact ih (by simp) (by simp) h

/-! ### What is read -/

/-- The line behind the first `alt-sig` line goes on with it. -/
def Continued (c : Bytes) : Prop :=
  ∃ front found next rest, linesOf c = front ++ found :: next :: rest ∧
    (∀ line ∈ front, ¬altSigWord.isPrefixOf line) ∧ altSigWord.isPrefixOf found ∧ next.head? = some sp

/-- There are headers, and no line goes on with the `alt-sig` line. -/
structure Clean (c : Bytes) : Prop where
  headed : c.head? ≠ some lf
  not_continued : ¬Continued c

/-- One reads as the other, and has an `alt-sig` header besides. -/
structure ReadsSame (commit plain : Commit) : Prop where
  signed : ∃ value, (altSigName, value) ∈ commit.block.headers
  headers : plain.block.headers = commit.block.headers.eraseP fun header => header.1 = altSigName
  tree : plain.tree = commit.tree
  parents : plain.parents = commit.parents
  author : plain.block.value (utf8 "author") = commit.block.value (utf8 "author")
  committer : plain.block.value (utf8 "committer") = commit.block.value (utf8 "committer")
  message : plain.block.hasSeparator = commit.block.hasSeparator ∧ plain.block.message = commit.block.message

theorem continued_iff {front rest : List Bytes} {field : Bytes}
    (hblock : IsBlock (front ++ headerLine field :: rest))
    (hfront : ∀ line ∈ front, ¬altSigWord.isPrefixOf line) (message : Bytes) :
    Continued ((front ++ headerLine field :: rest).flatten ++ lf :: message) ↔
      (rest.flatten ++ lf :: message).head? = some sp := by
  have hlines : linesOf ((front ++ headerLine field :: rest).flatten ++ lf :: message)
      = front ++ headerLine field :: (rest ++ [lf] :: linesOf message) := by
    rw [linesOf_flatten hblock.line]
    simp [linesOf, lf]
  obtain ⟨next, others, hnext, hhead⟩ : ∃ next others, rest ++ [lf] :: linesOf message = next :: others ∧
      (next.head? = some sp ↔ (rest.flatten ++ lf :: message).head? = some sp) := by
    cases rest with
    | nil => exact ⟨[lf], linesOf message, rfl, Iff.rfl⟩
    | cons next rest =>
      refine ⟨next, _, rfl, ?_⟩
      obtain ⟨content, rfl, -⟩ := hblock.line next (by simp)
      cases content with
      | nil => exact Iff.rfl
      | cons b content => exact Iff.rfl
  rw [← hhead]
  constructor
  · rintro ⟨front', found, next', rest', hsame, hfront', hfound, hsp⟩
    rw [hlines, hnext] at hsame
    have hprefix : front = front' := by
      have hpast : ∀ {a b : List Bytes} {x y : Bytes} {s t : List Bytes}, a ++ x :: s = b ++ y :: t →
          (∀ line ∈ b, ¬altSigWord.isPrefixOf line) → altSigWord.isPrefixOf x → b.length ≤ a.length := by
        intro a b x y s t heq hb hx
        by_contra hlt
        have hget := congrArg (·[a.length]?) heq
        rw [getElem?_append_right (Nat.le_refl _), getElem?_append_left (by omega)] at hget
        simp only [Nat.sub_self, getElem?_cons_zero] at hget
        exact hb x (mem_of_getElem? hget.symm) hx
      refine (append_inj hsame ?_).1
      exact Nat.le_antisymm (hpast hsame.symm hfront hfound)
        (hpast hsame hfront' (isPrefixOf_headerLine field))
    subst hprefix
    rw [append_cancel_left_eq] at hsame
    injection hsame with _ hsame
    injection hsame with hsame _
    rw [hsame]
    exact hsp
  · intro hsp
    exact ⟨front, headerLine field, next, others, by rw [hlines, hnext], hfront, isPrefixOf_headerLine field,
      hsp⟩

theorem value_eraseP (h : name ≠ altSigName) :
    (headers.eraseP fun header => header.1 = altSigName).find? (fun header => header.1 = name)
      = headers.find? fun header => header.1 = name := by
  induction headers with
  | nil => rfl
  | cons header headers ih =>
    by_cases hsig : header.1 = altSigName
    · have hother : ¬header.1 = name := fun heq => h (heq.symm.trans hsig)
      rw [eraseP_cons_of_pos (by simpa using hsig), find?_cons_of_neg (by simpa using hother)]
    · rw [eraseP_cons_of_neg (by simpa using hsig), find?_cons, find?_cons, ih]

theorem values_eraseP (h : name ≠ altSigName) :
    (headers.eraseP fun header => header.1 = altSigName).filter (fun header => header.1 = name)
      = headers.filter fun header => header.1 = name := by
  induction headers with
  | nil => rfl
  | cons header headers ih =>
    by_cases hsig : header.1 = altSigName
    · have hother : ¬header.1 = name := fun heq => h (heq.symm.trans hsig)
      rw [eraseP_cons_of_pos (by simpa using hsig), filter_cons_of_neg (by simpa using hother)]
    · rw [eraseP_cons_of_neg (by simpa using hsig), filter_cons, filter_cons, ih]

/-- Everything read of a commit but its headers' order follows from the headers. -/
theorem readsSame_of_headers {commit plain : Commit}
    (hsigned : ∃ value, (altSigName, value) ∈ commit.block.headers)
    (hheaders : plain.block.headers = commit.block.headers.eraseP fun header => header.1 = altSigName)
    (hmessage : plain.block.hasSeparator = commit.block.hasSeparator ∧
      plain.block.message = commit.block.message) : ReadsSame commit plain := by
  have hvalue : ∀ name, name ≠ altSigName → plain.block.value name = commit.block.value name := by
    intro name hname
    rw [value, value, hheaders, value_eraseP hname]
  have hvalues : plain.block.values (utf8 "parent") = commit.block.values (utf8 "parent") := by
    rw [values, values, hheaders, values_eraseP (by decide)]
  exact ⟨hsigned, hheaders, by rw [Commit.tree, Commit.tree, hvalue _ (by decide)],
    by rw [Commit.parents, Commit.parents, hvalues], hvalue _ (by decide), hvalue _ (by decide), hmessage⟩

theorem eraseP_signed {front more : List (Bytes × Bytes)} (h : ∀ header ∈ front, header.1 ≠ altSigName)
    (value : Bytes) :
    (front ++ (altSigName, value) :: more).eraseP (fun header => header.1 = altSigName) = front ++ more := by
  rw [eraseP_append_right _ (by simpa using h), eraseP_cons_of_pos (by simp)]

section Reading

variable {front rest : List Bytes} {field : Bytes} {message : Bytes}

/-- A commit whose `alt-sig` line is not continued, and the commit without that line. -/
theorem parse_clean (hline : ∀ line ∈ front, IsLine line ∧ line ≠ [lf])
    (hother : ∀ line ∈ front, ¬altSigWord.isPrefixOf line) (hfield : lf ∉ field) {behind : Bytes}
    (hbehind : behind.head? ≠ some sp) :
    (∃ e, HeaderBlock.parse (front.flatten ++ (headerLine field ++ behind)) = .error e ∧
        HeaderBlock.parse (front.flatten ++ behind) = .error e) ∨
      ∃ (headers : List (Bytes × Bytes)) (block : HeaderBlock),
        (∀ header ∈ headers, header.1 ≠ altSigName) ∧
        HeaderBlock.parse (front.flatten ++ (headerLine field ++ behind))
          = .ok { block with headers := headers ++ (altSigName, field) :: block.headers } ∧
        HeaderBlock.parse (front.flatten ++ behind)
          = .ok { block with headers := headers ++ block.headers } := by
  have hnone : ∀ header ∈ ([] : List (Bytes × Bytes)), header.1 ≠ altSigName := by simp
  rcases parseFrom_front hline hother hnone with ⟨e, he⟩ | ⟨headers, hnames, hheaders⟩
  · exact .inl ⟨e, he _, he _⟩
  · have hplain : parseFrom (headers ++ []) behind = _ := parseFrom_prepend headers (.inr hbehind)
    have hsigned : parseFrom (headers ++ [(altSigName, field)] ++ []) behind = _ :=
      parseFrom_prepend _ (.inr hbehind)
    rw [append_nil] at hplain hsigned
    cases hblock : parseFrom [] behind with
    | error e =>
      refine .inl ⟨e, ?_, ?_⟩
      · rw [HeaderBlock.parse, hheaders, parseFrom_headerLine headers hfield, hsigned, hblock]
        rfl
      · rw [HeaderBlock.parse, hheaders, hplain, hblock]
        rfl
    | ok block =>
      refine .inr ⟨headers, block, hnames, ?_, ?_⟩
      · rw [HeaderBlock.parse, hheaders, parseFrom_headerLine headers hfield, hsigned, hblock]
        simp [Except.map]
      · rw [HeaderBlock.parse, hheaders, hplain, hblock]
        rfl

/-- A commit whose `alt-sig` line is continued: the header is longer than the line, and if the commit cannot
be read then neither can the one without the line. -/
theorem parse_continued (hline : ∀ line ∈ front, IsLine line ∧ line ≠ [lf])
    (hother : ∀ line ∈ front, ¬altSigWord.isPrefixOf line) (hfield : lf ∉ field) {line : Bytes}
    (hlf : lf ∉ line) (behind : Bytes) :
    (∀ block,
      HeaderBlock.parse (front.flatten ++ (headerLine field ++ (sp :: line ++ lf :: behind))) = .ok block →
      ∃ headers value more, (∀ header ∈ headers, header.1 ≠ altSigName) ∧
        block.headers = headers ++ (altSigName, value) :: more ∧ field.length < value.length) ∧
    ∀ e, HeaderBlock.parse (front.flatten ++ (headerLine field ++ (sp :: line ++ lf :: behind))) = .error e →
      ∃ e', HeaderBlock.parse (front.flatten ++ (sp :: line ++ lf :: behind)) = .error e' := by
  have hnone : ∀ header ∈ ([] : List (Bytes × Bytes)), header.1 ≠ altSigName := by simp
  rcases parseFrom_front hline hother hnone with ⟨e, he⟩ | ⟨headers, hnames, hheaders⟩
  · refine ⟨fun block hblock => ?_, fun _ _ => ⟨e, he _⟩⟩
    rw [HeaderBlock.parse, he] at hblock
    cases hblock
  · have hsigned : HeaderBlock.parse (front.flatten ++ (headerLine field ++ (sp :: line ++ lf :: behind)))
        = (parseFrom [(altSigName, field ++ lf :: line)] behind).map
            fun block => { block with headers := headers ++ block.headers } := by
      rw [HeaderBlock.parse, hheaders, parseFrom_headerLine headers hfield,
        parseFrom_continuation headers altSigName field hlf behind,
        parseFrom_prepend headers (.inl (cons_ne_nil _ _))]
    rw [hsigned]
    cases hblock : parseFrom [(altSigName, field ++ lf :: line)] behind with
    | ok block =>
      refine ⟨fun block' hblock' => ?_, fun e he => by cases he⟩
      cases hblock'
      obtain ⟨tail, more, hmore⟩ := parseFrom_first hblock
      refine ⟨headers, _, more, hnames, congrArg (headers ++ ·) hmore, ?_⟩
      simp only [length_append, length_cons]
      omega
    | error e =>
      refine ⟨fun block' hblock' => (by cases hblock'), fun _ _ => ?_⟩
      rw [HeaderBlock.parse, hheaders]
      rcases eq_nil_or_concat headers with rfl | ⟨init, last, rfl⟩
      · have hsplit : splitFirst lf (sp :: (line ++ lf :: behind)) = some (sp :: line, behind) :=
          splitFirst_append (fun hmem => (mem_cons.mp hmem).elim lf_ne_sp hlf) behind
        refine ⟨.headers "continuation before any header", ?_⟩
        rw [cons_append, parseFrom_split [] lf_ne_sp.symm hsplit, if_pos rfl]
        rfl
      · refine ⟨e, ?_⟩
        rw [concat_eq_append, parseFrom_continuation init last.1 last.2 hlf behind]
        exact parseFrom_error (cons_ne_nil _ _) (by simp) hblock

/-- A commit that reads as another, and has a header more, is longer by just that header. -/
theorem ReadsSame.length {commit plain : Commit} (h : ReadsSame commit plain)
    {headers more : List (Bytes × Bytes)} {value : Bytes} (hnames : ∀ header ∈ headers, header.1 ≠ altSigName)
    (hheaders : commit.block.headers = headers ++ (altSigName, value) :: more) :
    commit.serialize.length = plain.serialize.length + (serializeHeader (altSigName, value)).length := by
  have hplain := h.headers
  rw [hheaders, eraseP_signed hnames] at hplain
  rw [Commit.serialize, Commit.serialize, serialize, serialize, hheaders, hplain, h.message.1, h.message.2]
  simp only [length_append, flatMap_append, flatMap_cons]
  omega

end Reading

theorem parse_of_error {data : Bytes} {e : ObjectParseError} (h : Commit.parse data = .error e) :
    HeaderBlock.parse data = .error e := by
  cases hblock : HeaderBlock.parse data with
  | error e' => rw [Commit.parse_eq_error hblock] at h; exact congrArg _ (Except.error.inj h)
  | ok block =>
    have hok : Commit.parse data = .ok ⟨block, wellFormed_of_parse hblock⟩ := Commit.parse_eq_ok.mpr hblock
    rw [hok] at h
    cases h

/-- The commit and what was signed of it read the same exactly when no line goes on with the `alt-sig`
line. -/
theorem readsSame_iff_clean (S : Signing) {c : Bytes} {a : AltSig S} (h : extractAltSig S c = .ok (some a)) :
    (∀ commit, Commit.parse c = .ok commit →
      ((∃ plain, Commit.parse a.canonical = .ok plain ∧ ReadsSame commit plain) ↔ Clean c)) ∧
    ∀ e, Commit.parse c = .error e → ∃ e', Commit.parse a.canonical = .error e' := by
  obtain ⟨front, field, rest, message, hblock, hfield, hother, rfl, hcanonical⟩ := block_of_extractAltSig h
  rw [hcanonical]
  have hcontinued := continued_iff hblock hother message
  have hcat : (front ++ headerLine field :: rest).flatten ++ lf :: message
      = front.flatten ++ (headerLine field ++ (rest.flatten ++ lf :: message)) := by simp
  have hplainCat : front.flatten ++ rest.flatten ++ lf :: message
      = front.flatten ++ (rest.flatten ++ lf :: message) := append_assoc _ _ _
  by_cases hhead : ((front ++ headerLine field :: rest).flatten ++ lf :: message).head? = some lf
  · -- the blank line is the first one: there are no headers
    obtain ⟨tail, htail⟩ := head?_eq_some_iff.mp hhead
    have hparse : HeaderBlock.parse (lf :: tail) = .ok ⟨[], true, tail⟩ := by
      rw [HeaderBlock.parse, parseFrom, if_pos rfl]
    rw [htail]
    refine ⟨fun commit hcommit => ?_, fun e he => ?_⟩
    · rw [Commit.parse_eq_ok, hparse] at hcommit
      constructor
      · rintro ⟨plain, _, hsame⟩
        obtain ⟨value, hvalue⟩ := hsame.signed
        rw [← Except.ok.inj hcommit] at hvalue
        exact absurd hvalue not_mem_nil
      · intro hclean
        exact absurd rfl hclean.headed
    · have hfail := parse_of_error he
      rw [hparse] at hfail
      cases hfail
  · have hline : ∀ line ∈ front, IsLine line ∧ line ≠ [lf] := by
      intro line hmem
      refine ⟨hblock.line line (mem_append_left _ hmem), ?_⟩
      cases front with
      | nil => cases hmem
      | cons first front =>
        rcases mem_cons.mp hmem with rfl | hmem
        · rwa [hcat, flatten_cons, append_assoc,
            (hblock.line line (mem_append_left _ mem_cons_self)).head] at hhead
        · exact hblock.not_blank line (mem_append_left _ hmem)
    by_cases hsp : (rest.flatten ++ lf :: message).head? = some sp
    · have hnot : ¬Clean ((front ++ headerLine field :: rest).flatten ++ lf :: message) := fun hclean =>
        hclean.not_continued (hcontinued.mpr hsp)
      obtain ⟨line, behind, hlf, hrest⟩ : ∃ line behind, lf ∉ line ∧
          rest.flatten ++ lf :: message = sp :: line ++ lf :: behind := by
        cases rest with
        | nil => exact absurd (Option.some.inj hsp) lf_ne_sp
        | cons next rest =>
          obtain ⟨content, rfl, hcontent⟩ := hblock.line next (by simp)
          cases content with
          | nil => exact absurd (Option.some.inj hsp) lf_ne_sp
          | cons b content =>
            obtain rfl : b = sp := Option.some.inj hsp
            exact ⟨content, rest.flatten ++ lf :: message,
              fun hmem => hcontent (mem_cons_of_mem _ hmem), by simp⟩
      rw [hplainCat, hrest]
      rw [hcat, hrest] at hnot ⊢
      obtain ⟨hok, herror⟩ := parse_continued hline hother hfield hlf behind
      refine ⟨fun commit hcommit => ⟨?_, fun hclean => absurd hclean hnot⟩, fun e he => ?_⟩
      · rintro ⟨plain, hplain, hsame⟩
        have hparsed := Commit.parse_eq_ok.mp hcommit
        obtain ⟨headers, value, more, hnames, hheaders, hlonger⟩ := hok _ hparsed
        have hlength := hsame.length hnames hheaders
        rw [Commit.serialize, serialize_of_parse hparsed, Commit.serialize,
          serialize_of_parse (Commit.parse_eq_ok.mp hplain)] at hlength
        have hheader := length_serializeHeader altSigName value
        have hname : altSigName.length = 7 := by decide
        have hword : altSigWord.length = 8 := by decide
        simp only [length_append, headerLine, length_singleton, hword] at hlength
        omega
      · obtain ⟨e', he'⟩ := herror e (parse_of_error he)
        exact ⟨e', Commit.parse_eq_error he'⟩
    · have hclean : Clean ((front ++ headerLine field :: rest).flatten ++ lf :: message) :=
        ⟨hhead, fun hcont => hsp (hcontinued.mp hcont)⟩
      rw [hplainCat]
      rw [hcat] at hclean ⊢
      rcases parse_clean hline hother hfield hsp with
        ⟨e, hsigned, hplain⟩ | ⟨headers, block, hnames, hsigned, hplain⟩
      · refine ⟨fun commit hcommit => ?_, fun _ _ => ⟨e, Commit.parse_eq_error hplain⟩⟩
        rw [Commit.parse_eq_ok, hsigned] at hcommit
        cases hcommit
      · refine ⟨fun commit hcommit => ⟨fun _ => hclean, fun _ => ?_⟩, fun e he => ?_⟩
        · rw [Commit.parse_eq_ok, hsigned] at hcommit
          have hblock := (Except.ok.inj hcommit).symm
          refine ⟨⟨_, wellFormed_of_parse hplain⟩, Commit.parse_eq_ok.mpr hplain,
            readsSame_of_headers ?_ ?_ ?_⟩
          · exact ⟨field, by rw [hblock]; simp⟩
          · rw [hblock, eraseP_signed hnames]
          · rw [hblock]
            exact ⟨rfl, rfl⟩
        · have hfail := parse_of_error he
          rw [hsigned] at hfail
          cases hfail

/-- **What is signed is what is read.** What is put into a commit is taken out again; and a commit and its
payload read the same, but for the one header, exactly when no line goes on with the `alt-sig` line. -/
theorem signature_covers_what_is_read {Key : Type} {verify : Key → Bytes → ByteArr 64 → Except String Unit} :
    (∀ b, extractAltSig (ed25519 Key verify) b = .ok none → ∀ principal : String,
      ' ' ∉ principal.toList → '\n' ∉ principal.toList → ∀ sig, ∃ c,
        embedAltSig b (altSigLine principal sig) = some c ∧
        extractAltSig (ed25519 Key verify) c = .ok (some ⟨principal, sig, b⟩)) ∧
    ∀ c a, extractAltSig (ed25519 Key verify) c = .ok (some a) →
      (∀ commit, Commit.parse c = .ok commit →
        ((∃ plain, Commit.parse a.canonical = .ok plain ∧ ReadsSame commit plain) ↔ Clean c)) ∧
      ∀ e, Commit.parse c = .error e → ∃ e', Commit.parse a.canonical = .error e' :=
  ⟨fun _ hb _ hspace hline sig => extract_embed hb hspace hline sig,
    fun _ _ h => readsSame_iff_clean _ h⟩

section Samples

def zeroSig : ByteArr 64 := ByteArr.fill 64 0

def noKeys : Signing := ed25519 Unit fun _ _ _ => .ok ()

/-- A commit with a line behind the `alt-sig` line that goes on with it. -/
def continuedCommit : Bytes := utf8 "author a\n" ++ altSigLine "p" zeroSig ++ utf8 " x\n\nm"

theorem continuedCommit_eq : continuedCommit
    = ([utf8 "author a\n"] ++ headerLine (altSigField "p" zeroSig) :: [utf8 " x\n"]).flatten ++
        lf :: utf8 "m" := by
  have hrest : utf8 " x\n\nm" = utf8 " x\n" ++ lf :: utf8 "m" := by decide
  simp only [continuedCommit, altSigLine_eq, hrest]
  simp

theorem isBlock_continuedCommit :
    IsBlock ([utf8 "author a\n"] ++ headerLine (altSigField "p" zeroSig) :: [utf8 " x\n"]) := by
  refine ⟨by simp, ?_, ?_⟩
  · intro line hmem
    simp only [singleton_append, mem_cons, not_mem_nil, or_false] at hmem
    rcases hmem with rfl | rfl | rfl
    · exact ⟨utf8 "author a", by decide, by decide⟩
    · exact isLine_headerLine (lf_not_mem_altSigField zeroSig (by decide))
    · exact ⟨utf8 " x", by decide, by decide⟩
  · intro line hmem
    simp only [singleton_append, tail_cons, mem_cons, not_mem_nil, or_false] at hmem
    rcases hmem with rfl | rfl
    · intro heq
      have hhead := congrArg List.head? heq
      revert hhead
      decide
    · decide

theorem extract_continuedCommit : extractAltSig noKeys continuedCommit
    = .ok (some ⟨"p", zeroSig, [utf8 "author a\n"].flatten ++ [utf8 " x\n"].flatten ++ lf :: utf8 "m"⟩) := by
  have hfront : ∀ line ∈ [utf8 "author a\n"], ¬altSigWord.isPrefixOf line := by
    intro line hmem
    rw [mem_singleton.mp hmem]
    decide
  have hfield : parseAltSig noKeys (altSigField "p" zeroSig) = .ok ("p", zeroSig) :=
    parseAltSig_altSigField zeroSig (by decide)
  rw [continuedCommit_eq, extractAltSig_block isBlock_continuedCommit hfront, hfield]

theorem parse_continuedCommit : ∃ commit, Commit.parse continuedCommit = .ok commit := by
  have hauthor : IsName (utf8 "author") := ⟨by decide, by decide, by decide⟩
  have hfirst := parseFrom_line [] hauthor (show lf ∉ utf8 "a" by decide)
  have hlines : continuedCommit = utf8 "author" ++ sp :: utf8 "a" ++ lf ::
      (headerLine (altSigField "p" zeroSig) ++ (sp :: utf8 "x" ++ lf :: lf :: utf8 "m")) := by
    have hone : utf8 "author a\n" = utf8 "author" ++ sp :: utf8 "a" ++ [lf] := by decide
    have hlast : utf8 " x\n" = sp :: utf8 "x" ++ [lf] := by decide
    simp only [continuedCommit_eq, hone, hlast]
    simp
  have hparse : HeaderBlock.parse continuedCommit = .ok ⟨[(utf8 "author", utf8 "a"),
      (altSigName, altSigField "p" zeroSig ++ lf :: utf8 "x")], true, utf8 "m"⟩ := by
    rw [hlines, HeaderBlock.parse, hfirst,
      parseFrom_headerLine _ (lf_not_mem_altSigField zeroSig (by decide)),
      parseFrom_continuation _ _ _ (by decide), parseFrom, if_pos rfl]
    rfl
  exact ⟨⟨_, wellFormed_of_parse hparse⟩, Commit.parse_eq_ok.mpr hparse⟩

theorem not_clean_continuedCommit : ¬Clean continuedCommit := by
  intro hclean
  have hfront : ∀ line ∈ [utf8 "author a\n"], ¬altSigWord.isPrefixOf line := by
    intro line hmem
    rw [mem_singleton.mp hmem]
    decide
  have hcontinued := continued_iff isBlock_continuedCommit hfront (utf8 "m")
  rw [← continuedCommit_eq] at hcontinued
  exact hclean.not_continued (hcontinued.mpr (by decide))

/-- Taken out and read, the two cases. -/
theorem signature_covers_what_is_read_samples :
    (∃ c, embedAltSig (utf8 "author a\n\nm") (altSigLine "p" zeroSig) = some c ∧
      extractAltSig noKeys c = .ok (some ⟨"p", zeroSig, utf8 "author a\n\nm"⟩)) ∧
    ∃ a, extractAltSig noKeys continuedCommit = .ok (some a) ∧ ∀ commit,
      Commit.parse continuedCommit = .ok commit →
        ((∃ plain, Commit.parse a.canonical = .ok plain ∧ ReadsSame commit plain) ↔ Clean continuedCommit) :=
  ⟨signature_covers_what_is_read.1 _ rfl "p" (by decide) (by decide) zeroSig,
    _, extract_continuedCommit, (signature_covers_what_is_read.2 _ _ extract_continuedCommit).1⟩

/-- What was signed of this commit does not say that its author's name goes on. -/
theorem continued_line_moves : ∃ a commit, extractAltSig noKeys continuedCommit = .ok (some a) ∧
    Commit.parse continuedCommit = .ok commit ∧
      ¬∃ plain, Commit.parse a.canonical = .ok plain ∧ ReadsSame commit plain := by
  obtain ⟨commit, hcommit⟩ := parse_continuedCommit
  refine ⟨_, commit, extract_continuedCommit, hcommit, fun hsame => ?_⟩
  have hiff := (readsSame_iff_clean noKeys extract_continuedCommit).1 commit hcommit
  exact not_clean_continuedCommit (hiff.mp hsame)

end Samples

end Alt.Server.SignedHeader
