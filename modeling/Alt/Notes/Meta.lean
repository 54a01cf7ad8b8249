import Alt.Library.LossyUtf8
import Mathlib.Data.List.Chain
import Mathlib.Data.List.DropRight

namespace Alt.Notes

open Alt.Library List

/-!
# The text of a note (`alt-cli/src/meta.rs`, 30–110)

A note is kept as header lines and, below a blank line, a message that stands in for the commit's own.

* `Meta.parse`, `Meta.render` — reading and writing that text;
* `parse_render_iff` — a note is read back as it was written exactly if no field breaks its line and the
  message is one that `parse` keeps.
-/

/-- A string, as its characters. -/
abbrev Text := List Char

/-- One commit's note. -/
structure Meta where
  fields : List (Text × Text)
  message : Option Text
  deriving DecidableEq

/-! ### Strings -/

/-- `split_once` at the first place where `a` and `b` follow each other. -/
def splitOnce (a b : Char) : Text → Option (Text × Text)
  | c :: d :: rest =>
    if c = a ∧ d = b then some ([], rest)
    else (splitOnce a b (d :: rest)).map fun cut => (c :: cut.1, cut.2)
  | _ => none

/-- A line without the carriage return in front of its end. -/
def stripReturn (line : Text) : Text := if line.getLast? = some '\r' then line.dropLast else line

/-- `lines`: what is behind the last line end is a line if it is not empty, and keeps its end. -/
def lines (text : Text) : List Text :=
  let pieces := text.splitOn '\n'
  pieces.dropLast.map stripReturn ++ (pieces.getLast?.filter (· ≠ [])).toList

/-- The white space of Unicode. -/
def isWhitespace (c : Char) : Bool :=
  (0x09 ≤ c.toNat && c.toNat ≤ 0x0d) || c.toNat == 0x20 || c.toNat == 0x85 || c.toNat == 0xa0 ||
    c.toNat == 0x1680 || (0x2000 ≤ c.toNat && c.toNat ≤ 0x200a) || c.toNat == 0x2028 ||
    c.toNat == 0x2029 || c.toNat == 0x202f || c.toNat == 0x205f || c.toNat == 0x3000

/-- Nothing is left of it when it is trimmed. -/
def isBlank (text : Text) : Bool := text.all isWhitespace

/-! ### Notes as text -/

namespace Meta

def fieldsOf (head : Text) : List (Text × Text) := (lines head).filterMap (splitOnce ':' ' ')

def parse (text : Text) : Meta :=
  match splitOnce '\n' '\n' text with
  | some (head, body) => ⟨fieldsOf head, some body |>.filter fun b => !isBlank b⟩
  | none => ⟨fieldsOf (text.rdropWhile (· = '\n')), none⟩

def fieldLine (field : Text × Text) : Text := field.1 ++ ':' :: ' ' :: field.2

def endLine (text : Text) : Text := if text.getLast? = some '\n' then text else text ++ ['\n']

def render (note : Meta) : Text :=
  (note.fields.flatMap fun field => fieldLine field ++ ['\n']) ++
    match note.message with
    | some message => '\n' :: endLine message
    | none => []

end Meta

/-- Nowhere do `a` and `b` follow each other. -/
def Free (a b : Char) (text : Text) : Prop := text.IsChain fun x y => ¬(x = a ∧ y = b)

/-- A field that is one line, and is cut where its key ends. -/
structure PlainField (field : Text × Text) : Prop where
  key : '\n' ∉ field.1
  cut : Free ':' ' ' field.1
  value : '\n' ∉ field.2

/-- A note that its text stands for. -/
structure Meta.Plain (note : Meta) : Prop where
  fields : ∀ field ∈ note.fields, PlainField field
  /-- A carriage return at a line's end is lost, but for the last line. -/
  returns : ∀ field ∈ note.fields.dropLast, field.2.getLast? ≠ some '\r'
  message : ∀ message ∈ note.message, message.getLast? = some '\n' ∧ isBlank message = false
  /-- A message below no fields is read as fields. -/
  headed : note.fields = [] → note.message = none

/-! ### Cutting -/

section

variable {a b : Char} {text front back : Text}

/-- The cut is at the first place. -/
theorem splitOnce_append (back : Text) (h : Free a b (front ++ [a])) :
    splitOnce a b (front ++ a :: b :: back) = some (front, back) := by
  induction front with
  | nil => rw [nil_append, splitOnce, if_pos ⟨rfl, rfl⟩]
  | cons c front ih =>
    have htail : Free a b (front ++ [a]) := h.tail
    cases front with
    | nil =>
      have hstep : ¬(c = a ∧ a = b) := (isChain_cons_cons.mp h).1
      rw [singleton_append, splitOnce, if_neg hstep]
      have hrest := ih htail
      rw [nil_append] at hrest
      rw [hrest]
      rfl
    | cons d front =>
      have hstep : ¬(c = a ∧ d = b) := (isChain_cons_cons.mp h).1
      rw [cons_append, cons_append, splitOnce, if_neg hstep]
      have hrest := ih htail
      rw [cons_append] at hrest
      rw [hrest]
      rfl

theorem splitOnce_eq_none (h : Free a b text) : splitOnce a b text = none := by
  fun_induction splitOnce a b text with
  | case1 c d rest hcut => exact absurd hcut (isChain_cons_cons.mp h).1
  | case2 c d rest hne ih =>
    rw [ih h.tail]
    rfl
  | case3 => rfl

/-- What was cut is free of a place to cut at. -/
theorem free_of_splitOnce (h : splitOnce a b text = some (front, back)) :
    text = front ++ a :: b :: back ∧ Free a b front := by
  fun_induction splitOnce a b text generalizing front with
  | case1 c d rest hcut =>
    cases h
    rw [hcut.1, hcut.2]
    exact ⟨rfl, isChain_nil⟩
  | case2 c d rest hne ih =>
    obtain ⟨⟨front', back'⟩, hcut, heq⟩ := Option.map_eq_some_iff.mp h
    cases heq
    obtain ⟨htext, hfree⟩ := ih hcut
    refine ⟨by rw [htext]; rfl, ?_⟩
    cases front' with
    | nil => exact isChain_singleton c
    | cons e front' =>
      obtain rfl : d = e := (List.cons.inj htext).1
      exact isChain_cons_cons.mpr ⟨hne, hfree⟩
  | case3 => cases h

end

/-! ### Lines -/

section

variable {field : Text × Text} {fields : List (Text × Text)}

theorem newline_not_mem_fieldLine (h : PlainField field) : '\n' ∉ Meta.fieldLine field := by
  simp only [Meta.fieldLine, mem_append, mem_cons, not_or]
  exact ⟨h.key, by decide, by decide, h.value⟩

theorem splitOnce_fieldLine (h : PlainField field) :
    splitOnce ':' ' ' (Meta.fieldLine field) = some field := by
  refine splitOnce_append field.2 (h.cut.append (isChain_singleton _) fun x _ y hy => ?_)
  cases hy
  exact fun heq => absurd heq.2 (by decide)

theorem stripReturn_fieldLine : stripReturn (Meta.fieldLine field) = Meta.fieldLine (field.1, stripReturn field.2) := by
  rw [stripReturn, stripReturn, Meta.fieldLine, Meta.fieldLine]
  cases hvalue : field.2 with
  | nil => rw [if_neg (by simp), if_neg (by simp)]
  | cons c value =>
    have hlast : (field.1 ++ ':' :: ' ' :: c :: value).getLast? = (c :: value).getLast? := by
      simp [getLast?_append, getLast?_cons]
    rw [hlast]
    split
    · rw [dropLast_append_of_ne_nil (cons_ne_nil _ _)]
      rfl
    · rfl

theorem plainField_stripReturn (h : PlainField field) : PlainField (field.1, stripReturn field.2) where
  key := h.key
  cut := h.cut
  value := by
    dsimp only
    rw [stripReturn]
    split
    · exact fun hmem => h.value (dropLast_subset _ hmem)
    · exact h.value

/-- The lines of fields, without the last line's end. -/
def joined (fields : List (Text × Text)) : Text := ['\n'].intercalate (fields.map Meta.fieldLine)

theorem lines_joined (hne : fields ≠ []) (h : ∀ field ∈ fields, PlainField field) :
    lines (joined fields) =
      (fields.map Meta.fieldLine).dropLast.map stripReturn ++ [Meta.fieldLine (fields.getLast hne)] := by
  have hsplit : (joined fields).splitOn '\n' = fields.map Meta.fieldLine := by
    refine splitOn_intercalate '\n' (fun line hline => ?_) (by simpa using hne)
    obtain ⟨field, hfield, rfl⟩ := mem_map.mp hline
    exact newline_not_mem_fieldLine (h field hfield)
  rw [lines, hsplit]
  congr 1
  rw [getLast?_map, getLast?_eq_some_getLast hne, Option.map_some, Option.filter_some, if_pos]
  · rfl
  · simp [Meta.fieldLine]

/-- What is read of the lines of fields: the same, but for carriage returns. -/
theorem fieldsOf_joined (hne : fields ≠ []) (h : ∀ field ∈ fields, PlainField field) :
    Meta.fieldsOf (joined fields) =
      fields.dropLast.map (fun field => (field.1, stripReturn field.2)) ++ [fields.getLast hne] := by
  rw [Meta.fieldsOf, lines_joined hne h, filterMap_append, ← map_dropLast, map_map]
  congr 1
  · rw [filterMap_map, ← filterMap_eq_map]
    refine filterMap_congr fun field hfield => ?_
    have hplain := plainField_stripReturn (h field (dropLast_subset _ hfield))
    rw [Function.comp_apply, Function.comp_apply, stripReturn_fieldLine, splitOnce_fieldLine hplain]
    rfl
  · rw [filterMap_cons, splitOnce_fieldLine (h _ (getLast_mem hne))]
    rfl

theorem flatMap_fieldLine (hne : fields ≠ []) :
    (fields.flatMap fun field => Meta.fieldLine field ++ ['\n']) = joined fields ++ ['\n'] := by
  induction fields with
  | nil => exact absurd rfl hne
  | cons field fields ih =>
    cases fields with
    | nil => simp [joined]
    | cons field' fields =>
      rw [flatMap_cons, ih (cons_ne_nil _ _)]
      simp [joined, List.intercalate]

/-- Text on one line, with its end, above lines of which the first is not empty. -/
theorem free_line {line rest : Text} (h : '\n' ∉ line) (hrest : Free '\n' '\n' rest)
    (hhead : rest.head? ≠ some '\n') : Free '\n' '\n' (line ++ '\n' :: rest) := by
  induction line with
  | nil =>
    cases rest with
    | nil => exact isChain_singleton _
    | cons c rest =>
      refine isChain_cons_cons.mpr ⟨fun heq => hhead ?_, hrest⟩
      rw [heq.2]
      rfl
  | cons c line ih =>
    have htail := ih fun hmem => h (mem_cons_of_mem _ hmem)
    have hc : c ≠ '\n' := fun heq => h (heq ▸ mem_cons_self)
    cases line with
    | nil => exact isChain_cons_cons.mpr ⟨fun heq => hc heq.1, htail⟩
    | cons d line => exact isChain_cons_cons.mpr ⟨fun heq => hc heq.1, htail⟩

/-- A field's line does not start with a line's end. -/
theorem head_fieldLine (h : PlainField field) (rest : Text) :
    (Meta.fieldLine field ++ rest).head? ≠ some '\n' := by
  obtain ⟨key, value⟩ := field
  cases key with
  | nil => exact fun heq => absurd (Option.some.inj heq) (by decide)
  | cons c key => exact fun heq => h.key (Option.some.inj heq ▸ mem_cons_self)

/-- No line of a field is empty, so there is no blank line above the message. -/
theorem free_fieldLines (h : ∀ field ∈ fields, PlainField field) :
    Free '\n' '\n' (fields.flatMap fun field => Meta.fieldLine field ++ ['\n']) := by
  induction fields with
  | nil => exact isChain_nil
  | cons field fields ih =>
    rw [flatMap_cons, append_assoc]
    refine free_line (newline_not_mem_fieldLine (h field mem_cons_self))
      (ih fun field' hmem => h field' (mem_cons_of_mem _ hmem)) ?_
    cases fields with
    | nil => exact fun heq => absurd heq (by simp)
    | cons field' fields =>
      rw [flatMap_cons, append_assoc]
      exact head_fieldLine (h field' (by simp)) _

/-- The last line of fields is the last field's. -/
theorem joined_eq_append (hne : fields ≠ []) :
    ∃ front, joined fields = front ++ Meta.fieldLine (fields.getLast hne) := by
  induction fields with
  | nil => exact absurd rfl hne
  | cons field fields ih =>
    cases fields with
    | nil => exact ⟨[], by simp [joined]⟩
    | cons field' fields =>
      obtain ⟨front, hfront⟩ := ih (cons_ne_nil _ _)
      refine ⟨Meta.fieldLine field ++ '\n' :: front, ?_⟩
      rw [getLast_cons (cons_ne_nil _ _), append_assoc, cons_append, ← hfront]
      simp [joined, List.intercalate]

/-- There is no line end behind the last line. -/
theorem rdropWhile_joined (hne : fields ≠ []) (h : ∀ field ∈ fields, PlainField field) :
    (joined fields).rdropWhile (· = '\n') = joined fields := by
  rw [rdropWhile_eq_self_iff]
  intro hl hlast
  obtain ⟨front, hfront⟩ := joined_eq_append hne
  have hline : Meta.fieldLine (fields.getLast hne) ≠ [] := by simp [Meta.fieldLine]
  refine newline_not_mem_fieldLine (h _ (getLast_mem hne)) ?_
  have hmem := getLast_mem hline
  have hend : (joined fields).getLast hl = (Meta.fieldLine (fields.getLast hne)).getLast hline := by
    simp only [hfront]
    exact getLast_append_right hline
  rw [← hend] at hmem
  exact of_decide_eq_true hlast ▸ hmem

end

/-! ### Reading a note back -/

namespace Meta

variable {note : Meta}

/-- **What is read of a note's text, where the fields are lines.** Carriage returns at the lines' ends are
lost, the message is ended and kept if it is not blank. -/
theorem parse_render (hne : note.fields ≠ []) (h : ∀ field ∈ note.fields, PlainField field) :
    parse (render note) =
      ⟨note.fields.dropLast.map (fun field => (field.1, stripReturn field.2)) ++ [note.fields.getLast hne],
        (note.message.map endLine).filter fun body => !isBlank body⟩ := by
  have hfree := free_fieldLines h
  rw [render, flatMap_fieldLine hne] at *
  cases hmessage : note.message with
  | none =>
    rw [append_nil, parse, splitOnce_eq_none hfree]
    dsimp only
    rw [rdropWhile_concat_pos _ _ _ (by decide), rdropWhile_joined hne h, fieldsOf_joined hne h]
    rfl
  | some message =>
    rw [append_assoc, singleton_append, parse, splitOnce_append _ hfree]
    dsimp only
    rw [fieldsOf_joined hne h]
    rfl

end Meta

/-! ### What is read is one line -/

theorem newline_not_mem_of_mem_splitOn {text line : Text} (h : line ∈ text.splitOn '\n') : '\n' ∉ line := by
  induction text generalizing line with
  | nil =>
    obtain rfl : line = [] := by simpa using h
    exact not_mem_nil
  | cons c text ih =>
    rw [splitOn_cons_eq_if_modifyHead] at h
    split at h
    case isTrue hc =>
      cases mem_cons.mp h with
      | inl heq => exact heq ▸ not_mem_nil
      | inr hmem => exact ih hmem
    case isFalse hc =>
      cases hsplit : text.splitOn '\n' with
      | nil => exact absurd hsplit (splitOn_ne_nil _ _)
      | cons first rest =>
        rw [hsplit] at h ih
        cases mem_cons.mp h with
        | inl heq =>
          rw [heq, mem_cons, not_or]
          exact ⟨fun hcr => hc (by simp [← hcr]), ih mem_cons_self⟩
        | inr hmem => exact ih (mem_cons_of_mem _ hmem)

/-- A line has no line end in it. -/
theorem newline_not_mem_of_mem_lines {text line : Text} (h : line ∈ lines text) : '\n' ∉ line := by
  rw [lines, mem_append] at h
  cases h with
  | inl h =>
    obtain ⟨piece, hpiece, rfl⟩ := mem_map.mp h
    have hfree := newline_not_mem_of_mem_splitOn (dropLast_subset _ hpiece)
    rw [stripReturn]
    split
    · exact fun hmem => hfree (dropLast_subset _ hmem)
    · exact hfree
  | inr h =>
    obtain ⟨hlast, -⟩ := Option.filter_eq_some_iff.mp (Option.mem_toList.mp h)
    exact newline_not_mem_of_mem_splitOn (mem_of_getLast? hlast)

namespace Meta

variable {note : Meta}

theorem plainField_of_mem_fieldsOf {head : Text} {field : Text × Text} (h : field ∈ fieldsOf head) :
    PlainField field := by
  obtain ⟨line, hline, hcut⟩ := mem_filterMap.mp h
  obtain ⟨htext, hfree⟩ := free_of_splitOnce hcut
  have hnot := newline_not_mem_of_mem_lines hline
  rw [htext, mem_append, mem_cons, mem_cons, not_or, not_or, not_or] at hnot
  exact ⟨hnot.1, hfree, hnot.2.2.2⟩

/-- Every field that is read is one line. -/
theorem plainField_of_mem_parse {text : Text} {field : Text × Text} (h : field ∈ (parse text).fields) :
    PlainField field := by
  rw [parse] at h
  split at h
  · exact plainField_of_mem_fieldsOf h
  · exact plainField_of_mem_fieldsOf h

theorem stripReturn_eq_self_iff {line : Text} : stripReturn line = line ↔ line.getLast? ≠ some '\r' := by
  rw [stripReturn]
  split
  case isTrue h =>
    refine iff_of_false (fun heq => ?_) (not_not_intro h)
    have hlen := congrArg List.length heq
    rw [length_dropLast] at hlen
    cases line with
    | nil => cases h
    | cons c line => simp at hlen
  case isFalse h => exact iff_of_true rfl h

theorem endLine_eq_self_iff {text : Text} : endLine text = text ↔ text.getLast? = some '\n' := by
  rw [endLine]
  split
  case isTrue h => exact iff_of_true rfl h
  case isFalse h => exact iff_of_false (fun heq => by simp at heq) h

theorem eq_of_mem_of_append_eq_cons {c : Char} {text : Text} (h : text ++ [c] = c :: text) :
    ∀ d ∈ text, d = c := by
  induction text with
  | nil => exact fun d hd => absurd hd not_mem_nil
  | cons x text ih =>
    obtain ⟨rfl, htail⟩ := List.cons.inj h
    intro d hd
    cases mem_cons.mp hd with
    | inl heq => exact heq
    | inr hmem => exact ih htail d hmem

/-- A message below no fields is not read back: it would be one of line ends only. -/
theorem parse_render_ne {message : Text} : parse (render ⟨[], some message⟩) ≠ ⟨[], some message⟩ := by
  intro heq
  have hmsg := congrArg Meta.message heq
  rw [show render ⟨[], some message⟩ = '\n' :: endLine message from rfl, parse] at hmsg
  split at hmsg
  case h_1 head body hcut =>
    dsimp only at hmsg
    obtain ⟨hbody, hblank⟩ := Option.filter_eq_some_iff.mp hmsg
    obtain rfl := Option.some.inj hbody
    obtain ⟨htext, -⟩ := free_of_splitOnce hcut
    rw [endLine] at htext
    split at htext
    case isTrue =>
      have hlen := congrArg List.length htext
      simp only [length_cons, length_append] at hlen
      omega
    case isFalse =>
      have hlen := congrArg List.length htext
      simp only [length_cons, length_append, length_nil] at hlen
      obtain rfl : head = [] := eq_nil_of_length_eq_zero (by omega)
      have hall := eq_of_mem_of_append_eq_cons (List.cons.inj htext).2
      have hwhite : isBlank body = true :=
        all_eq_true.mpr fun c hc => by
          rw [hall c hc]
          decide
      rw [hwhite] at hblank
      exact absurd hblank (by decide)
  case h_2 => exact absurd hmsg (by simp)

/-- **A note is read back as it was written exactly if its text stands for it.** -/
theorem parse_render_iff : parse (render note) = note ↔ note.Plain := by
  by_cases hne : note.fields = []
  · obtain ⟨fields, message⟩ := note
    cases hne
    cases message with
    | none =>
      refine iff_of_true (by decide +kernel) ⟨?_, ?_, ?_, fun _ => rfl⟩
      · exact fun field hmem => absurd hmem not_mem_nil
      · exact fun field hmem => absurd hmem not_mem_nil
      · exact fun message hmem => absurd hmem (by simp)
    | some message =>
      exact iff_of_false parse_render_ne fun h => absurd (h.headed rfl) (by simp)
  constructor
  · intro heq
    have hfields : ∀ field ∈ note.fields, PlainField field := by
      intro field hmem
      rw [← heq] at hmem
      exact plainField_of_mem_parse hmem
    have hread := parse_render hne hfields
    rw [heq] at hread
    have hlist := congrArg Meta.fields hread
    have hmsg := congrArg Meta.message hread
    refine ⟨hfields, fun field hmem => ?_, fun message hmem => ?_, fun h => absurd h hne⟩
    · have hinit : note.fields.dropLast = note.fields.dropLast.map fun field => (field.1, stripReturn field.2) := by
        have hdrop := congrArg List.dropLast hlist
        rwa [dropLast_concat] at hdrop
      have hself := map_inj_left.mp (hinit.symm.trans (map_id _).symm) field hmem
      exact stripReturn_eq_self_iff.mp (congrArg Prod.snd hself)
    · dsimp only at hmsg
      rw [Option.mem_def.mp hmem, Option.map_some] at hmsg
      obtain ⟨hend, hblank⟩ := Option.filter_eq_some_iff.mp hmsg.symm
      have hself := Option.some.inj hend
      refine ⟨endLine_eq_self_iff.mp hself, ?_⟩
      simpa using hblank
  · intro h
    rw [parse_render hne h.fields]
    have hlist : note.fields.dropLast.map (fun field => (field.1, stripReturn field.2)) = note.fields.dropLast := by
      have hself : ∀ field ∈ note.fields.dropLast, (field.1, stripReturn field.2) = id field :=
        fun field hmem => Prod.ext rfl (stripReturn_eq_self_iff.mpr (h.returns field hmem))
      rw [map_congr_left hself, map_id]
    have hmsg : (note.message.map endLine).filter (fun body => !isBlank body) = note.message := by
      cases hmessage : note.message with
      | none => rfl
      | some message =>
        obtain ⟨hend, hblank⟩ := h.message message hmessage
        rw [Option.map_some, endLine_eq_self_iff.mpr hend, Option.filter_some, hblank]
        rfl
    rw [hlist, hmsg, dropLast_append_getLast]

end Meta

end Alt.Notes
