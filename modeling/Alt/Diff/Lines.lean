import Alt.Diff.Histogram
import Alt.Library.Hex

namespace Alt.Diff

open Alt.Library List

/-!
# Line diff (`alt-diff/src/lib.rs`)

Texts are split into lines, each with its line feed; lines are interned to `u32` tokens in
order of first appearance; the histogram diff of the tokens, with touching edits merged, is the
result.

* `Interner` — the lines met so far and their tokens; `tokens_same`: while there are at most
  2³² of them, equal tokens are equal lines;
* `coalesce_path` — merging touching edits keeps the script and sets the edits apart;
* `Reconstructs` — what a line diff is for;
* `diffLines_reconstructs` — it is that for texts of at most 2³² different lines.

The interner's length is cut to a `u32`, so the line after 2³² others gets the token of the
first: `wrapped_diff` keeps it as if it were that line.
-/

/-! ### Lines -/

def lf : UInt8 := 0x0a

/-- The lines of what is left, `line` being the current one so far. -/
def splitLinesFrom (line : Bytes) : Bytes → List Bytes
  | [] => if line = [] then [] else [line]
  | b :: rest =>
    if b = lf then (line ++ [b]) :: splitLinesFrom [] rest else splitLinesFrom (line ++ [b]) rest

/-- Lines with their line feeds; the last one may have none. -/
def splitLines (data : Bytes) : List Bytes := splitLinesFrom [] data

theorem flatten_splitLinesFrom (line data : Bytes) :
    (splitLinesFrom line data).flatten = line ++ data := by
  induction data generalizing line with
  | nil =>
    rw [splitLinesFrom]
    split
    · rename_i hnil
      simp [hnil]
    · simp
  | cons b rest ih =>
    rw [splitLinesFrom]
    split
    · rw [flatten_cons, ih]
      simp
    · rw [ih]
      simp

/-- The lines of a text are the text. -/
@[simp] theorem flatten_splitLines (data : Bytes) : (splitLines data).flatten = data :=
  flatten_splitLinesFrom [] data

/-- A line with its line feed. -/
def IsLine (line : Bytes) : Prop := ∃ body, lf ∉ body ∧ line = body ++ [lf]

theorem splitLinesFrom_line {line body : Bytes} (h : lf ∉ body) (rest : Bytes) :
    splitLinesFrom line (body ++ lf :: rest) = (line ++ body ++ [lf]) :: splitLinesFrom [] rest := by
  induction body generalizing line with
  | nil => simp [splitLinesFrom]
  | cons b body ih =>
    have hb : b ≠ lf := fun hb => h (hb ▸ mem_cons_self)
    have hrest := @ih (line ++ [b]) fun hmem => h (mem_cons_of_mem _ hmem)
    rw [cons_append, splitLinesFrom, if_neg hb, hrest]
    simp

/-- A text put together of lines splits into them. -/
theorem splitLines_flatten {lines : List Bytes} (h : ∀ line ∈ lines, IsLine line) :
    splitLines lines.flatten = lines := by
  induction lines with
  | nil => rfl
  | cons line lines ih =>
    obtain ⟨body, hbody, rfl⟩ := h line mem_cons_self
    have hrest := ih fun l hl => h l (mem_cons_of_mem _ hl)
    have hcons := @splitLinesFrom_line [] body hbody lines.flatten
    rw [splitLines] at hrest ⊢
    rw [flatten_cons, append_assoc, singleton_append, hcons, hrest, nil_append]

/-! ### Interning -/

/-- Lines and their tokens, in order of first appearance. -/
abbrev Interner := List (Bytes × Nat)

/-- The token of a line, a new one if the line is new. -/
def intern (table : Interner) (line : Bytes) : Nat × Interner :=
  match table.lookup line with
  | some token => (token, table)
  | none =>
    let next := table.length % 2 ^ 32
    (next, table ++ [(line, next)])

def internAll : Interner → List Bytes → List Nat × Interner
  | table, [] => ([], table)
  | table, line :: lines =>
    let (token, table) := intern table line
    let (tokens, table) := internAll table lines
    (token :: tokens, table)

/-! ### The diff -/

/-- One turn of `coalesce`: an edit that touches the last one is merged into it. -/
def coalesceStep (out : List Edit) (e : Edit) : List Edit :=
  if e.old.isEmpty ∧ e.new.isEmpty then out
  else
    match out.getLast? with
    | some last =>
      if e.old.start ≤ last.old.stop ∧ e.new.start ≤ last.new.stop then
        out.dropLast ++ [⟨⟨last.old.start, max e.old.stop last.old.stop⟩,
          ⟨last.new.start, max e.new.stop last.new.stop⟩⟩]
      else out ++ [e]
    | none => out ++ [e]

def coalesce (edits : List Edit) : List Edit := edits.foldl coalesceStep []

/-- Histogram diff of split lines. -/
def diffLines (a b : List Bytes) : List Edit :=
  let (at_, table) := internAll [] a
  let (bt, _) := internAll table b
  coalesce (Histogram.diff at_ bt 0 at_.length 0 bt.length)

/-- Histogram diff of two texts. -/
def diff (old new : Bytes) : List Edit := diffLines (splitLines old) (splitLines new)

/-! ### Tokens -/

/-- Each line is in the table once, and its token is its place in it, as a `u32`. -/
structure Interned (table : Interner) : Prop where
  nodup : (table.map Prod.fst).Nodup
  token : ∀ i line token, table[i]? = some (line, token) → token = i % 2 ^ 32

namespace Interned

variable {table : Interner} {line line' : Bytes} {token : Nat}

theorem nil : Interned [] := ⟨nodup_nil, fun i line token h => by simp at h⟩

/-- What is looked up stands somewhere in the table. -/
theorem exists_index (h : table.lookup line = some token) :
    ∃ i : Nat, table[i]? = some (line, token) := by
  induction table with
  | nil => cases h
  | cons entry table ih =>
    rw [List.lookup_cons] at h
    split at h
    · rename_i heq
      cases h
      rw [beq_iff_eq] at heq
      exact ⟨0, by rw [heq]; rfl⟩
    · obtain ⟨i, hi⟩ := ih h
      exact ⟨i + 1, hi⟩

/-- Equal tokens are equal lines while tokens have not wrapped. -/
theorem injective (h : Interned table) (hlen : table.length ≤ 2 ^ 32)
    (hline : table.lookup line = some token) (hline' : table.lookup line' = some token) :
    line = line' := by
  obtain ⟨i, hi⟩ := exists_index hline
  obtain ⟨j, hj⟩ := exists_index hline'
  obtain ⟨hilt, -⟩ := List.getElem?_eq_some_iff.mp hi
  obtain ⟨hjlt, -⟩ := List.getElem?_eq_some_iff.mp hj
  have hti := h.token i line token hi
  have htj := h.token j line' token hj
  rw [Nat.mod_eq_of_lt (by omega)] at hti htj
  subst hti htj
  rw [hi] at hj
  exact (Prod.mk.inj (Option.some.inj hj)).1

theorem lookup_eq_none (h : table.lookup line = none) : line ∉ table.map Prod.fst := by
  intro hmem
  obtain ⟨entry, hentry, rfl⟩ := mem_map.mp hmem
  rw [lookup_eq_none_iff] at h
  simpa using h entry hentry

/-- Interning a line. -/
theorem intern (h : Interned table) (line : Bytes) :
    Interned (intern table line).2 ∧
      (∃ more, (Diff.intern table line).2 = table ++ more ∧ ∀ p ∈ more, p.1 = line) ∧
      (Diff.intern table line).2.lookup line = some (Diff.intern table line).1 := by
  rw [Diff.intern]
  split
  · rename_i token hsome
    exact ⟨h, ⟨[], (append_nil _).symm, by simp⟩, hsome⟩
  · rename_i hnone
    have hnew := lookup_eq_none hnone
    refine ⟨⟨?_, fun i l t hi => ?_⟩, ⟨_, rfl, by simp⟩, ?_⟩
    · rw [map_append, nodup_append]
      refine ⟨h.nodup, by simp, fun l hl l' hl' heq => hnew ?_⟩
      rw [map_singleton, mem_singleton] at hl'
      rwa [heq, hl'] at hl
    · rw [getElem?_append] at hi
      split at hi
      · exact h.token i l t hi
      · rename_i hge
        rw [getElem?_singleton] at hi
        split at hi
        · cases hi
          rw [show i = table.length by omega]
        · cases hi
    · rw [lookup_append, hnone]
      simp

/-- Interning lines, one after the other: each can be looked up in the final table. -/
theorem internAll (h : Interned table) (lines : List Bytes) :
    Interned (Diff.internAll table lines).2 ∧
      (∃ more, (Diff.internAll table lines).2 = table ++ more ∧ ∀ p ∈ more, p.1 ∈ lines) ∧
      List.Forall₂ (fun token line => (Diff.internAll table lines).2.lookup line = some token)
        (Diff.internAll table lines).1 lines := by
  induction lines generalizing table with
  | nil => exact ⟨h, ⟨[], (append_nil _).symm, by simp⟩, .nil⟩
  | cons line lines ih =>
    obtain ⟨hone, ⟨new, hnew, hnewmem⟩, hfound⟩ := h.intern line
    obtain ⟨hall, ⟨more, hmore, hmoremem⟩, htokens⟩ := ih hone
    rw [Diff.internAll]
    refine ⟨hall, ⟨new ++ more, ?_, fun p hp => ?_⟩, .cons ?_ htokens⟩
    · rw [hmore, hnew, append_assoc]
    · rcases mem_append.mp hp with hp | hp
      · exact hnewmem p hp ▸ mem_cons_self
      · exact mem_cons_of_mem _ (hmoremem p hp)
    · dsimp only
      rw [hmore, lookup_append, hfound]
      rfl

end Interned

/-- The table of the lines of both sides is no longer than there are different lines. -/
theorem length_internAll_le (a b : List Bytes) :
    (internAll (internAll [] a).2 b).2.length ≤ (a ++ b).dedup.length := by
  obtain ⟨ha, ⟨news, hnews, hnewsmem⟩, -⟩ := Interned.nil.internAll a
  obtain ⟨hb, ⟨more, hmore, hmoremem⟩, -⟩ := ha.internAll b
  have hsub : (internAll (internAll [] a).2 b).2.map Prod.fst ⊆ (a ++ b).dedup := by
    intro line hline
    obtain ⟨p, hp, rfl⟩ := mem_map.mp hline
    rw [hmore, hnews, nil_append] at hp
    rw [mem_dedup, mem_append]
    exact (mem_append.mp hp).imp (hnewsmem p) (hmoremem p)
  simpa using (subperm_of_subset hb.nodup hsub).length_le

/-- **Equal tokens are equal lines**, while there are at most 2³² different lines. -/
theorem tokens_same {a b : List Bytes} (h : (a ++ b).dedup.length ≤ 2 ^ 32) {i j token : Nat}
    (hi : (internAll [] a).1[i]? = some token)
    (hj : (internAll (internAll [] a).2 b).1[j]? = some token) :
    ∃ line, a[i]? = some line ∧ b[j]? = some line := by
  obtain ⟨ha, -, hatokens⟩ := Interned.nil.internAll a
  obtain ⟨hb, ⟨more, hmore, -⟩, hbtokens⟩ := ha.internAll b
  obtain ⟨hilt, hti⟩ := List.getElem?_eq_some_iff.mp hi
  obtain ⟨hjlt, htj⟩ := List.getElem?_eq_some_iff.mp hj
  have hia : i < a.length := hatokens.length_eq ▸ hilt
  have hjb : j < b.length := hbtokens.length_eq ▸ hjlt
  have hla : (internAll (internAll [] a).2 b).2.lookup a[i] = some token := by
    have hfound := hatokens.get hilt hia
    rw [get_eq_getElem, get_eq_getElem, hti] at hfound
    rw [hmore, lookup_append, hfound]
    rfl
  have hlb : (internAll (internAll [] a).2 b).2.lookup b[j] = some token := by
    have hfound := hbtokens.get hjlt hjb
    rwa [get_eq_getElem, get_eq_getElem, htj] at hfound
  have hsame := hb.injective ((length_internAll_le a b).trans h) hla hlb
  exact ⟨a[i], getElem?_eq_getElem hia, hsame ▸ getElem?_eq_getElem hjb⟩

/-! ### Merging touching edits -/

/-- The edits have something in them, and two of them have something kept between them. -/
structure Apart (edits : List Edit) : Prop where
  nonempty : ∀ e ∈ edits, ¬ (e.old.isEmpty ∧ e.new.isEmpty)
  pairwise : edits.Pairwise fun e e' => e.old.stop < e'.old.start ∧ e.new.stop < e'.new.start

section Coalesce

variable {α : Type} {a b : List α} {i j i' j' : Nat} {out es : List Edit} {e : Edit}

theorem coalesceStep_path (h : Path a b i j (out ++ e :: es) i' j') (hout : Apart out) :
    Path a b i j (coalesceStep out e ++ es) i' j' ∧ Apart (coalesceStep out e) := by
  obtain ⟨hfront, hedit, hback⟩ := h.split
  have hbounds := hedit.bounds e mem_cons_self
  rw [coalesceStep]
  split
  · -- an empty edit stands where it leads
    rename_i hempty
    simp only [Range.isEmpty, decide_eq_true_eq] at hempty
    rw [show e.old.stop = e.old.start by omega, show e.new.stop = e.new.start by omega] at hback
    exact ⟨hfront.append hback, hout⟩
  · rename_i hnonempty
    split
    · rename_i last hlast
      obtain ⟨front, rfl⟩ : ∃ front, out = front ++ [last] :=
        ⟨out.dropLast, (dropLast_append_getLast? last hlast).symm⟩
      rw [append_assoc] at h
      obtain ⟨-, hlastEdit, hrest⟩ := h.split
      have hlastBounds := hlastEdit.bounds last mem_cons_self
      have hgap := hrest.first_gap
      have hpair := pairwise_append.mp hout.pairwise
      split
      · -- nothing is kept between the two edits: one edit leads over both
        rename_i htouch
        have hmerged := h.merge htouch.1
        rw [dropLast_concat, max_eq_left (by omega), max_eq_left (by omega), append_assoc]
        refine ⟨hmerged, fun x hx => ?_, ?_⟩
        · rcases mem_append.mp hx with hx | hx
          · exact hout.nonempty x (mem_append_left _ hx)
          · rw [mem_singleton] at hx
            subst hx
            have := hout.nonempty last (mem_append_right _ mem_cons_self)
            simp only [Range.isEmpty, decide_eq_true_eq] at this ⊢
            omega
        · refine pairwise_append.mpr ⟨hpair.1, pairwise_singleton _ _, fun x hx y hy => ?_⟩
          rw [mem_singleton] at hy
          subst hy
          exact hpair.2.2 x hx last mem_cons_self
      · rename_i hkept
        rw [append_assoc, append_assoc]
        refine ⟨h, fun x hx => ?_, ?_⟩
        · rcases mem_append.mp hx with hx | hx
          · exact hout.nonempty x hx
          · rw [mem_singleton] at hx
            exact hx ▸ hnonempty
        · refine pairwise_append.mpr ⟨hout.pairwise, pairwise_singleton _ _, ?_⟩
          intro x hx y hy
          rw [mem_singleton] at hy
          subst hy
          rcases mem_append.mp hx with hx | hx
          · have := hpair.2.2 x hx last mem_cons_self
            omega
          · rw [mem_singleton] at hx
            subst hx
            omega
    · rename_i hnone
      obtain rfl := getLast?_eq_none_iff.mp hnone
      refine ⟨h, fun x hx => ?_, pairwise_singleton _ _⟩
      rw [nil_append, mem_singleton] at hx
      exact hx ▸ hnonempty

theorem foldl_coalesce_path (h : Path a b i j (out ++ es) i' j') (hout : Apart out) :
    Path a b i j (es.foldl coalesceStep out) i' j' ∧ Apart (es.foldl coalesceStep out) := by
  induction es generalizing out with
  | nil => exact ⟨by rwa [append_nil] at h, hout⟩
  | cons e es ih =>
    obtain ⟨hpath, hapart⟩ := coalesceStep_path h hout
    exact ih hpath hapart

/-- **Merging touching edits** keeps the script and sets the edits apart. -/
theorem coalesce_path (h : Path a b i j es i' j') :
    Path a b i j (coalesce es) i' j' ∧ Apart (coalesce es) :=
  @foldl_coalesce_path _ a b i j i' j' [] es h ⟨by simp, .nil⟩

end Coalesce

/-! ### What a line diff is for -/

/-- The edits are in order, apart and in range, and make `b` of `a`. -/
structure Reconstructs (a b : List Bytes) (edits : List Edit) : Prop where
  inRange : ∀ e ∈ edits, (e.old.start ≤ e.old.stop ∧ e.old.stop ≤ a.length) ∧
    (e.new.start ≤ e.new.stop ∧ e.new.stop ≤ b.length)
  apart : Apart edits
  kept : gaps a Edit.old 0 edits = gaps b Edit.new 0 edits
  result : applyEdits a b 0 edits = b

theorem length_tokens (a b : List Bytes) : (internAll [] a).1.length = a.length ∧
    (internAll (internAll [] a).2 b).1.length = b.length :=
  ⟨(Interned.nil.internAll a).2.2.length_eq, ((Interned.nil.internAll a).1.internAll b).2.2.length_eq⟩

/-- The edits lead from the starts of both sides to their ends, as scripts of the tokens. -/
theorem diffLines_tokens (a b : List Bytes) :
    Path (internAll [] a).1 (internAll (internAll [] a).2 b).1 0 0 (diffLines a b) a.length b.length ∧
      Apart (diffLines a b) := by
  obtain ⟨ha, hb⟩ := length_tokens a b
  have hpath := Histogram.diff_path (Nat.zero_le (internAll [] a).1.length)
    (Nat.zero_le (internAll (internAll [] a).2 b).1.length) le_rfl le_rfl
  obtain ⟨hmerged, hapart⟩ := coalesce_path hpath
  rw [ha, hb] at hmerged hapart
  rw [diffLines]
  dsimp only
  rw [ha, hb]
  exact ⟨hmerged, hapart⟩

/-- The edits lead from the starts of both sides to their ends. -/
theorem diffLines_path {a b : List Bytes} (h : (a ++ b).dedup.length ≤ 2 ^ 32) :
    Path a b 0 0 (diffLines a b) a.length b.length ∧ Apart (diffLines a b) := by
  obtain ⟨hpath, hapart⟩ := diffLines_tokens a b
  obtain ⟨ha, hb⟩ := length_tokens a b
  exact ⟨hpath.relabel ha.symm hb.symm fun i j token => tokens_same h, hapart⟩

/-- **A line diff reconstructs its target**, if the two sides have at most 2³² different lines. -/
theorem diffLines_reconstructs (a b : List Bytes) (h : (a ++ b).dedup.length ≤ 2 ^ 32) :
    Reconstructs a b (diffLines a b) := by
  obtain ⟨hpath, hapart⟩ := diffLines_path h
  refine ⟨fun e he => ?_, hapart, hpath.gaps rfl rfl, ?_⟩
  · have := hpath.bounds e he
    omega
  · rw [hpath.applyEdits rfl rfl, drop_zero]

theorem diffLines_reconstructs_reorder :
    ([[1, lf], [2, lf], [3, lf]] ++ [[2, lf], [1, lf], [3, lf], [4]] : List Bytes).dedup.length ≤ 2 ^ 32 ∧
      Reconstructs [[1, lf], [2, lf], [3, lf]] [[2, lf], [1, lf], [3, lf], [4]]
        (diffLines [[1, lf], [2, lf], [3, lf]] [[2, lf], [1, lf], [3, lf], [4]]) :=
  ⟨by decide, diffLines_reconstructs _ _ (by decide)⟩

/-! ### A text and itself -/

theorem trimPrefix_self {a : List Nat} {i n : Nat} (hi : i ≤ n) :
    Histogram.trimPrefix a a i n i n = (n, n) := by
  obtain ⟨k, rfl⟩ := Nat.exists_eq_add_of_le hi
  induction k generalizing i with
  | zero => rw [Histogram.trimPrefix, if_neg (by omega), Nat.add_zero]
  | succ k ih =>
    rw [Histogram.trimPrefix, if_pos ⟨by omega, by omega, rfl⟩,
      show i + (k + 1) = i + 1 + k by omega]
    exact ih (by omega)

/-- Lines that are all in the table keep their tokens, and the table stays. -/
theorem internAll_known {table : Interner} {tokens : List Nat} {lines : List Bytes}
    (h : List.Forall₂ (fun token line => table.lookup line = some token) tokens lines) :
    internAll table lines = (tokens, table) := by
  induction h with
  | nil => rfl
  | @cons token line tokens lines hline _ ih =>
    have hone : intern table line = (token, table) := by rw [intern, hline]
    rw [internAll, hone]
    dsimp only
    rw [ih]

/-- Nothing has to be done to a text to get the same. -/
theorem diffLines_self (a : List Bytes) : diffLines a a = [] := by
  have hagain := internAll_known (Interned.nil.internAll a).2.2
  have hpre := @trimPrefix_self (internAll [] a).1 0 (internAll [] a).1.length (Nat.zero_le _)
  generalize hn : (internAll [] a).1.length = n at hpre
  have hsuf : Histogram.trimSuffix (internAll [] a).1 (internAll [] a).1 n n n n = (n, n) := by
    rw [Histogram.trimSuffix, if_neg (fun h => absurd h.1 (Nat.lt_irrefl n))]
  rw [diffLines]
  dsimp only
  rw [hagain]
  dsimp only
  rw [hn, Histogram.diff, hpre, hsuf]
  dsimp only
  rw [if_pos (.inl rfl), if_neg (by simp)]
  rfl

/-! ### More lines than tokens -/

/-- A line whose text is a number, in ten digits. -/
def numberLine (n : Nat) : Bytes := utf8 (String.ofList (hexChars (leBytes 5 n))) ++ [lf]

/-- The first `n` numbers, a line each. -/
def numberLines (n : Nat) : List Bytes := (List.range n).map numberLine

theorem numberLine_isLine (n : Nat) : IsLine (numberLine n) :=
  ⟨_, not_mem_utf8_hexChars (by decide) _, rfl⟩

theorem numberLine_injective {n m : Nat} (hn : n < 256 ^ 5) (hm : m < 256 ^ 5)
    (h : numberLine n = numberLine m) : n = m := by
  have hdigits := congrArg decodeHex (append_cancel_right h)
  rw [decodeHex_hexChars, decodeHex_hexChars, Option.some_inj] at hdigits
  rw [← leNat_leBytes_of_lt hn, hdigits, leNat_leBytes_of_lt hm]

/-- New lines are numbered on from the table's length, and are then in the table. -/
theorem internAll_new {table : Interner} {lines : List Bytes}
    (h : (table.map Prod.fst ++ lines).Nodup) :
    (internAll table lines).1 = (List.range' table.length lines.length).map (· % 2 ^ 32) ∧
      (internAll table lines).2.map Prod.fst = table.map Prod.fst ++ lines := by
  induction lines generalizing table with
  | nil => simp [internAll]
  | cons line lines ih =>
    have hnew : table.lookup line = none := by
      rw [lookup_eq_none_iff]
      intro p hp
      have hne := (nodup_append.mp h).2.2 p.1 (mem_map_of_mem hp) line mem_cons_self
      simpa using Ne.symm hne
    have hone : intern table line =
        (table.length % 2 ^ 32, table ++ [(line, table.length % 2 ^ 32)]) := by
      rw [intern, hnew]
    obtain ⟨htokens, hlines⟩ := @ih (table ++ [(line, table.length % 2 ^ 32)]) (by simpa using h)
    rw [internAll, hone, length_cons, List.range'_succ, map_cons]
    dsimp only
    rw [htokens, hlines]
    simp

/-- After 2³² lines, a line not among them is taken for the first. -/
theorem diffLines_wrapped {a : List Bytes} {line : Bytes} (hlen : a.length = 2 ^ 32)
    (h : (a ++ [line]).Nodup) : diffLines a [line] = [⟨⟨1, 2 ^ 32⟩, ⟨1, 1⟩⟩] := by
  obtain ⟨hatokens, htable⟩ := @internAll_new [] a (nodup_append.mp h).1
  obtain ⟨hbtokens, -⟩ := @internAll_new (internAll [] a).2 [line] (htable.symm ▸ h)
  have htableLen : (internAll [] a).2.length = 2 ^ 32 := by
    rw [← hlen, ← length_map Prod.fst, htable]
    rfl
  have hatLen : (internAll [] a).1.length = 2 ^ 32 := by
    rw [hatokens, length_map, length_range', hlen]
  have hfirst : (internAll [] a).1[0]? = some 0 := by
    rw [hatokens, getElem?_map, getElem?_range' (by omega)]
    rfl
  rw [htableLen] at hbtokens
  rw [diffLines]
  dsimp only
  generalize (internAll [] a).1 = at_ at hatLen hfirst ⊢
  rw [hbtokens, hatLen]
  have hbt : ((List.range' (2 ^ 32) [line].length).map (· % 2 ^ 32)) = [0] := rfl
  rw [hbt]
  have hpre : Histogram.trimPrefix at_ [0] 0 (2 ^ 32) 0 1 = (1, 1) := by
    rw [Histogram.trimPrefix, if_pos ⟨by decide, by decide, hfirst⟩, Histogram.trimPrefix,
      if_neg (fun hlt => absurd hlt.2.1 (by decide))]
  have hsuf : Histogram.trimSuffix at_ [0] 1 (2 ^ 32) 1 1 = (2 ^ 32, 1) := by
    rw [Histogram.trimSuffix, if_neg (fun hlt => absurd hlt.2.1 (by decide))]
  rw [Histogram.diff, length_singleton, hpre, hsuf]
  rfl

theorem numberLines_nodup : (numberLines (2 ^ 32) ++ [numberLine (2 ^ 32)]).Nodup := by
  have hall : numberLines (2 ^ 32) ++ [numberLine (2 ^ 32)] = numberLines (2 ^ 32 + 1) := by
    rw [numberLines, numberLines, range_succ, map_append, map_singleton]
  rw [hall, numberLines]
  refine List.Nodup.map_on (fun n hn m hm heq => ?_) nodup_range
  rw [mem_range] at hn hm
  exact numberLine_injective (by omega) (by omega) heq

theorem numberLines_isLine (n : Nat) : ∀ line ∈ numberLines n, IsLine line := by
  intro line hline
  obtain ⟨k, -, rfl⟩ := mem_map.mp hline
  exact numberLine_isLine k

theorem splitLines_numberLine (n : Nat) : splitLines (numberLine n) = [numberLine n] := by
  have hline := @splitLines_flatten [numberLine n] (by simp [numberLine_isLine])
  simpa using hline

/-- The diff of 2³² different lines and one more keeps the first line for it. -/
theorem diff_numberLines : diff (numberLines (2 ^ 32)).flatten (numberLine (2 ^ 32)) =
    [⟨⟨1, 2 ^ 32⟩, ⟨1, 1⟩⟩] := by
  rw [diff, splitLines_flatten (numberLines_isLine _), splitLines_numberLine]
  exact diffLines_wrapped (by rw [numberLines, length_map, length_range]) numberLines_nodup

/-- **More lines than tokens.** What the diff of these two texts makes of the old one is its
first line, not the new text. -/
theorem wrapped_diff : ¬ Reconstructs (splitLines (numberLines (2 ^ 32)).flatten)
    (splitLines (numberLine (2 ^ 32))) (diff (numberLines (2 ^ 32)).flatten (numberLine (2 ^ 32))) := by
  intro h
  have hresult := h.result
  rw [diff_numberLines, splitLines_flatten (numberLines_isLine _), splitLines_numberLine, applyEdits,
    applyEdits, slice_self, append_nil] at hresult
  have hlen : (numberLines (2 ^ 32)).length = 2 ^ 32 := by
    rw [numberLines, length_map, length_range]
  have hfirst : (numberLines (2 ^ 32))[0]? = some (numberLine 0) := by
    rw [numberLines, getElem?_map, getElem?_range (by decide)]
    rfl
  rw [drop_eq_nil_of_le (hlen.trans_le le_rfl), slice_cons hfirst (by decide), slice_self] at hresult
  have hsame := numberLine_injective (by decide) (by decide) (head_eq_of_cons_eq hresult)
  exact absurd hsame (by decide)

end Alt.Diff
