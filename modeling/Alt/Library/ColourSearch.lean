import Mathlib.Data.Finset.Card

namespace Alt.Library.ColourSearch

open List

/-!
# Library — finding cycles by colours

A depth-first search paints a node gray when it goes in and black when it goes out.  It reports each step
that it takes back to a gray node.

* `visit`, `visitAll` — the search; `Edge` — the steps that it takes;
* `visit_spec` — it returns, where its fuel is more than the white nodes; what it reports closes a cycle, and
  from what it paints without a report there is no way on and on (`Acc`);
* `visitAll_spec` — **it reports** exactly if there is a cycle.
-/

inductive Color where
  | white
  | gray
  | black
  deriving DecidableEq, Repr

/-- The colours, `none` for what is no node, and what is reported. -/
structure Search (α δ : Type) where
  color : α → Option Color
  found : List δ

section Visit

variable {α δ : Type} [DecidableEq α] (succ : α → Option (List α)) (report : α → α → δ)

def Search.paint (s : Search α δ) (a : α) (c : Color) : Search α δ :=
  { s with color := fun b => if b = a then some c else s.color b }

/-- What is done for a step from `a` to `b`, with `go` as the way in. -/
def follow (go : α → Search α δ → Option (Search α δ)) (a : α) (s : Search α δ) (b : α) : Option (Search α δ) :=
  match s.color b with
  | some .gray => some { s with found := s.found ++ [report a b] }
  | some .white => go b s
  | _ => some s

/-- Visit a node, `none` out of fuel. -/
def visit : Nat → α → Search α δ → Option (Search α δ)
  | 0, _, _ => none
  | fuel + 1, a, s =>
    if s.color a = some .white then do
      let s' ← ((succ a).getD []).foldlM (follow report (visit fuel) a) (s.paint a .gray)
      return s'.paint a .black
    else some s

/-- Visit nodes in order. -/
def visitAll (fuel : Nat) (nodes : List α) (s : Search α δ) : Option (Search α δ) :=
  nodes.foldlM (fun s a => visit succ report fuel a s) s

end Visit

/-- A node leads to another. -/
def Edge {α : Type} (succ : α → Option (List α)) (a b : α) : Prop := ∃ next, succ a = some next ∧ b ∈ next

section Laws

variable {α δ : Type} [DecidableEq α] {succ : α → Option (List α)} {report : α → α → δ}

/-- From a node there is no way on and on. -/
abbrev Ends (succ : α → Option (List α)) (a : α) : Prop := Acc (fun b c => Edge succ c b) a

/-- There is a cycle. -/
def HasCycle (succ : α → Option (List α)) : Prop := ∃ a, Relation.TransGen (Edge succ) a a

theorem not_cycle_of_ends {a : α} (h : Ends succ a) : ¬Relation.TransGen (Edge succ) a a := by
  induction h with
  | intro a _ ih =>
    intro hcycle
    obtain ⟨b, hab, hba⟩ := Relation.TransGen.head'_iff.mp hcycle
    exact ih b hab (Relation.TransGen.tail' hba hab)

/-- What a visit leaves as it was, and what it can add to the reports. -/
structure Grows (report : α → α → δ) (s s' : Search α δ) : Prop where
  nodes : ∀ b, s'.color b = none ↔ s.color b = none
  gray : ∀ b, s'.color b = some .gray ↔ s.color b = some .gray
  black : ∀ b, s.color b = some .black → s'.color b = some .black
  found : ∃ more, s'.found = s.found ++ more ∧ ∀ d ∈ more, ∃ a b, d = report a b

namespace Grows

variable {s s' s'' : Search α δ}

theorem refl (s : Search α δ) : Grows report s s where
  nodes _ := Iff.rfl
  gray _ := Iff.rfl
  black _ h := h
  found := ⟨[], (append_nil _).symm, fun d hd => by cases hd⟩

theorem trans (h : Grows report s s') (h' : Grows report s' s'') : Grows report s s'' where
  nodes b := (h'.nodes b).trans (h.nodes b)
  gray b := (h'.gray b).trans (h.gray b)
  black b hb := h'.black b (h.black b hb)
  found := by
    obtain ⟨more, hmore, hreports⟩ := h.found
    obtain ⟨more', hmore', hreports'⟩ := h'.found
    exact ⟨more ++ more', by rw [hmore', hmore, append_assoc], fun d hd =>
      (mem_append.mp hd).elim (hreports d) (hreports' d)⟩

/-- Nothing becomes white. -/
theorem white (h : Grows report s s') {b : α} (hb : s'.color b = some .white) : s.color b = some .white := by
  cases hs : s.color b with
  | none => rw [(h.nodes b).mpr hs] at hb; cases hb
  | some c =>
    cases c with
    | white => rfl
    | gray => rw [(h.gray b).mpr hs] at hb; cases hb
    | black => rw [h.black b hs] at hb; cases hb

/-- With nothing reported at the end, nothing is reported on the way. -/
theorem found_eq (h : Grows report s s') (h' : Grows report s' s'') (heq : s''.found = s.found) :
    s'.found = s.found ∧ s''.found = s'.found := by
  obtain ⟨more, hmore, -⟩ := h.found
  obtain ⟨more', hmore', -⟩ := h'.found
  rw [hmore', hmore, append_assoc, append_right_eq_self] at heq
  obtain ⟨rfl, rfl⟩ := append_eq_nil_iff.mp heq
  rw [append_nil] at hmore hmore'
  exact ⟨hmore, hmore'⟩

end Grows

/-! ### Colours -/

section Paint

variable {s : Search α δ} {a : α}

@[simp] theorem color_paint_self (c : Color) : (s.paint a c).color a = some c := if_pos rfl

theorem color_paint_of_ne {b : α} (h : b ≠ a) (c : Color) : (s.paint a c).color b = s.color b := if_neg h

/-- From a white node gray and then black. -/
theorem grows_paint {s' : Search α δ} (hwhite : s.color a = some .white) (h : Grows report (s.paint a .gray) s') :
    Grows report s (s'.paint a .black) where
  nodes b := by
    by_cases hb : b = a
    · simp [hb, hwhite]
    · rw [color_paint_of_ne hb, h.nodes, color_paint_of_ne hb]
  gray b := by
    by_cases hb : b = a
    · simp [hb, hwhite]
    · rw [color_paint_of_ne hb, h.gray, color_paint_of_ne hb]
  black b hblack := by
    by_cases hb : b = a
    · rw [hb, color_paint_self]
    · rw [color_paint_of_ne hb]
      exact h.black b ((color_paint_of_ne hb _).trans hblack)
  found := h.found

end Paint

/-! ### One visit -/

/-- The white nodes among some. -/
def whites (nodes : Finset α) (s : Search α δ) : Finset α := nodes.filter fun b => s.color b = some .white

theorem whites_subset {nodes : Finset α} {s s' : Search α δ} (h : Grows report s s') : whites nodes s' ⊆ whites nodes s :=
  Finset.monotone_filter_right nodes fun _ _ hb => h.white hb

/-- Painting a white node leaves one white node less. -/
theorem whites_paint {nodes : Finset α} {s : Search α δ} {a : α} (hmem : a ∈ nodes)
    (hwhite : s.color a = some .white) : (whites nodes (s.paint a .gray)).card < (whites nodes s).card := by
  refine Finset.card_lt_card (Finset.ssubset_iff_of_subset ?_ |>.mpr ⟨a, ?_, ?_⟩)
  · intro b hb
    simp only [whites, Finset.mem_filter] at hb ⊢
    refine ⟨hb.1, ?_⟩
    by_cases hba : b = a
    · rw [hba, hwhite]
    · rw [← hb.2, color_paint_of_ne hba]
  · simp [whites, hmem, hwhite]
  · simp [whites]

/-- What a visit, or a step of it, brings from `s` to `s'`. -/
structure Brings (succ : α → Option (List α)) (report : α → α → δ) (s s' : Search α δ) : Prop where
  grows : Grows report s s'
  cycle : s'.found ≠ s.found → HasCycle succ
  ends : s'.found = s.found → (∀ b, s.color b = some .black → Ends succ b) →
    ∀ b, s'.color b = some .black → Ends succ b

namespace Brings

variable {s s' s'' : Search α δ}

theorem refl (s : Search α δ) : Brings succ report s s where
  grows := .refl s
  cycle h := absurd rfl h
  ends _ h := h

theorem trans (h : Brings succ report s s') (h' : Brings succ report s' s'') : Brings succ report s s'' where
  grows := h.grows.trans h'.grows
  cycle hne := by
    by_cases hfirst : s'.found = s.found
    · exact h'.cycle fun heq => hne (heq.trans hfirst)
    · exact h.cycle hfirst
  ends heq hblack := by
    obtain ⟨hfirst, hsecond⟩ := h.grows.found_eq h'.grows heq
    exact h'.ends hsecond (h.ends hfirst hblack)

end Brings

/-- Every gray node leads to `a`. -/
def Under (succ : α → Option (List α)) (s : Search α δ) (a : α) : Prop :=
  ∀ g, s.color g = some .gray → Relation.ReflTransGen (Edge succ) g a

/-- What is asked of the way in: from a white node it comes back, with the node painted black. -/
def Goes (succ : α → Option (List α)) (report : α → α → δ) (nodes : Finset α) (bound : Nat)
    (go : α → Search α δ → Option (Search α δ)) : Prop :=
  ∀ a s, s.color a = some .white → (whites nodes s).card ≤ bound → (∀ b, s.color b = some .white → b ∈ nodes) →
    (∀ b, s.color b = none → succ b = none) → Under succ s a →
      ∃ s', go a s = some s' ∧ Brings succ report s s' ∧ s'.color a = some .black

section Step

variable {nodes : Finset α} {bound : Nat} {go : α → Search α δ → Option (Search α δ)} {a : α}

/-- A step from a gray node. -/
theorem follow_spec (hgo : Goes succ report nodes bound go) {s : Search α δ} {b : α}
    (hwhites : (whites nodes s).card ≤ bound) (hnodes : ∀ b, s.color b = some .white → b ∈ nodes)
    (hnone : ∀ b, s.color b = none → succ b = none) (hunder : Under succ s a)
    (hedge : Edge succ a b) :
    ∃ s', follow report go a s b = some s' ∧ Brings succ report s s' ∧
      (s'.found = s.found → (∀ c, s.color c = some .black → Ends succ c) → Ends succ b) := by
  rw [follow]
  cases hcolor : s.color b with
  | none =>
    refine ⟨s, rfl, .refl s, fun _ _ => ⟨b, fun c hc => ?_⟩⟩
    obtain ⟨next, hnext, -⟩ := hc
    rw [hnone b hcolor] at hnext
    cases hnext
  | some c =>
    cases c with
    | gray =>
      have hreport : Grows report s { s with found := s.found ++ [report a b] } :=
        ⟨fun _ => Iff.rfl, fun _ => Iff.rfl, fun _ h => h, ⟨[report a b], rfl, fun d hd => ⟨a, b, mem_singleton.mp hd⟩⟩⟩
      have hne : s.found ++ [report a b] ≠ s.found := by simp
      refine ⟨_, rfl, ⟨hreport, fun _ => ⟨a, ?_⟩, fun h => absurd h hne⟩, fun h => absurd h hne⟩
      exact Relation.TransGen.head' hedge (hunder b hcolor)
    | black => exact ⟨s, rfl, .refl s, fun _ hblack => hblack b hcolor⟩
    | white =>
      have hunder' : Under succ s b := fun g hg => (hunder g hg).tail hedge
      obtain ⟨s', hs', hbrings, hb⟩ := hgo b s hcolor hwhites hnodes hnone hunder'
      exact ⟨s', hs', hbrings, fun hfound hblack => hbrings.ends hfound hblack b hb⟩

/-- The steps from a gray node, one after the other. -/
theorem steps_spec (hgo : Goes succ report nodes bound go) (next : List α) {s : Search α δ}
    (hwhites : (whites nodes s).card ≤ bound) (hnodes : ∀ b, s.color b = some .white → b ∈ nodes)
    (hnone : ∀ b, s.color b = none → succ b = none) (hunder : Under succ s a)
    (hedge : ∀ b ∈ next, Edge succ a b) :
    ∃ s', next.foldlM (follow report go a) s = some s' ∧ Brings succ report s s' ∧
      (s'.found = s.found → (∀ c, s.color c = some .black → Ends succ c) → ∀ b ∈ next, Ends succ b) := by
  induction next generalizing s with
  | nil => exact ⟨s, rfl, .refl s, fun _ _ b hb => by cases hb⟩
  | cons b next ih =>
    obtain ⟨s', hs', hbrings, hb⟩ := follow_spec hgo hwhites hnodes hnone hunder
      (hedge b mem_cons_self)
    have hgrows := hbrings.grows
    obtain ⟨s'', hs'', hbrings', hnext⟩ := ih ((Finset.card_le_card (whites_subset hgrows)).trans hwhites)
      (fun c hc => hnodes c (hgrows.white hc)) (fun c hc => hnone c ((hgrows.nodes c).mp hc))
      (fun g hg => hunder g ((hgrows.gray g).mp hg))
      fun c hc => hedge c (mem_cons_of_mem b hc)
    refine ⟨s'', by rw [foldlM_cons, hs']; exact hs'', hbrings.trans hbrings', fun hfound hblack c hc => ?_⟩
    obtain ⟨hfirst, hsecond⟩ := hgrows.found_eq hbrings'.grows hfound
    rcases mem_cons.mp hc with rfl | hc
    · exact hb hfirst hblack
    · exact hnext hsecond (hbrings.ends hfirst hblack) c hc

end Step

/-- **A visit** to a white node. -/
theorem visit_spec (nodes : Finset α) (fuel : Nat) :
    Goes succ report nodes fuel (visit succ report (fuel + 1)) := by
  induction fuel with
  | zero =>
    intro a s hwhite hcard hnodes hnone hunder
    have hmem : a ∈ whites nodes s := Finset.mem_filter.mpr ⟨hnodes a hwhite, hwhite⟩
    rw [Finset.card_eq_zero.mp (Nat.le_zero.mp hcard)] at hmem
    cases hmem
  | succ fuel ih =>
    intro a s hwhite hcard hnodes hnone hunder
    have hless := whites_paint (hnodes a hwhite) hwhite
    have hcolor : ∀ b, (s.paint a .gray).color b = some .white → s.color b = some .white := by
      intro b hb
      by_cases hba : b = a
      · rw [hba, hwhite]
      · rwa [color_paint_of_ne hba] at hb
    have hpaintNone : ∀ b, (s.paint a .gray).color b = none → succ b = none := by
      intro b hb
      by_cases hba : b = a
      · rw [hba, color_paint_self] at hb
        cases hb
      · exact hnone b (by rwa [color_paint_of_ne hba] at hb)
    have hpaintUnder : Under succ (s.paint a .gray) a := by
      intro g hg
      by_cases hga : g = a
      · rw [hga]
      · exact hunder g (by rwa [color_paint_of_ne hga] at hg)
    have hedge : ∀ b ∈ (succ a).getD [], Edge succ a b := by
      intro b hb
      cases hsucc : succ a with
      | none =>
        rw [hsucc] at hb
        cases hb
      | some next =>
        rw [hsucc] at hb
        exact ⟨next, hsucc, hb⟩
    obtain ⟨s', hs', hbrings, hends⟩ := steps_spec ih ((succ a).getD []) (by omega)
      (fun b hb => hnodes b (hcolor b hb)) hpaintNone hpaintUnder hedge
    have hgrows := grows_paint hwhite hbrings.grows
    refine ⟨s'.paint a .black, ?_, ⟨hgrows, fun hne => hbrings.cycle hne, fun hfound hblack b hb => ?_⟩,
      color_paint_self _⟩
    · rw [visit, if_pos hwhite, hs']
      rfl
    · have hpaintBlack : ∀ c, (s.paint a .gray).color c = some .black → Ends succ c := by
        intro c hc
        by_cases hca : c = a
        · rw [hca, color_paint_self] at hc
          cases hc
        · exact hblack c (by rwa [color_paint_of_ne hca] at hc)
      by_cases hba : b = a
      · subst hba
        refine ⟨b, fun c ⟨next, hnext, hc⟩ => hends hfound hpaintBlack c ?_⟩
        rw [hnext]
        exact hc
      · rw [color_paint_of_ne hba] at hb
        exact hbrings.ends hfound hpaintBlack b hb

/-! ### All nodes -/

/-- The nodes in order, where none is gray. -/
theorem visitAll_brings (nodes : Finset α) {fuel : Nat} (hfuel : nodes.card < fuel) (names : List α)
    {s : Search α δ} (hnodes : ∀ b, s.color b = some .white → b ∈ nodes)
    (hnone : ∀ b, s.color b = none → succ b = none) (hgray : ∀ b, s.color b ≠ some .gray)
    (hnames : ∀ a ∈ names, s.color a ≠ none) :
    ∃ s', visitAll succ report fuel names s = some s' ∧ Brings succ report s s' ∧ ∀ a ∈ names, s'.color a = some .black := by
  induction names generalizing s with
  | nil => exact ⟨s, rfl, .refl s, fun a ha => by cases ha⟩
  | cons a names ih =>
    have hvisit : ∃ s', visit succ report fuel a s = some s' ∧ Brings succ report s s' ∧ s'.color a = some .black := by
      obtain ⟨fuel, rfl⟩ : ∃ n, fuel = n + 1 := ⟨fuel - 1, by omega⟩
      by_cases hwhite : s.color a = some .white
      · have hcard : (whites nodes s).card ≤ fuel :=
          (Finset.card_le_card (Finset.filter_subset _ nodes)).trans (Nat.lt_succ_iff.mp hfuel)
        exact visit_spec nodes fuel a s hwhite hcard hnodes hnone fun g hg => absurd hg (hgray g)
      · refine ⟨s, by rw [visit, if_neg hwhite], .refl s, ?_⟩
        cases hcolor : s.color a with
        | none => exact absurd hcolor (hnames a mem_cons_self)
        | some c =>
          cases c with
          | white => exact absurd hcolor hwhite
          | gray => exact absurd hcolor (hgray a)
          | black => rfl
    obtain ⟨s', hs', hbrings, ha⟩ := hvisit
    have hgrows := hbrings.grows
    obtain ⟨s'', hs'', hbrings', hrest⟩ := ih (fun c hc => hnodes c (hgrows.white hc))
      (fun c hc => hnone c ((hgrows.nodes c).mp hc)) (fun c hc => hgray c ((hgrows.gray c).mp hc))
      fun c hc hcolor => hnames c (mem_cons_of_mem a hc) ((hgrows.nodes c).mp hcolor)
    refine ⟨s'', by rw [visitAll, foldlM_cons, hs']; exact hs'', hbrings.trans hbrings', fun b hb => ?_⟩
    rcases mem_cons.mp hb with rfl | hb
    · exact hbrings'.grows.black b ha
    · exact hrest b hb

/-- **The search of all nodes** returns, and reports something exactly if there is a cycle. -/
theorem visitAll_spec {names : List α} (hsucc : ∀ a, succ a ≠ none → a ∈ names) {fuel : Nat}
    (hfuel : names.length < fuel) :
    ∃ s', visitAll succ report fuel names ⟨fun a => if a ∈ names then some .white else none, []⟩ = some s' ∧
      (s'.found ≠ [] ↔ HasCycle succ) ∧ ∀ d ∈ s'.found, ∃ a b, d = report a b := by
  have hcard : names.toFinset.card < fuel := (toFinset_card_le names).trans_lt hfuel
  have hnone : ∀ b, (if b ∈ names then some Color.white else none) = none → succ b = none := by
    intro b hb
    by_contra hne
    rw [if_pos (hsucc b hne)] at hb
    cases hb
  have hwhite : ∀ b, (if b ∈ names then some Color.white else none) = some .white → b ∈ names.toFinset := by
    intro b hb
    by_cases hmem : b ∈ names
    · exact mem_toFinset.mpr hmem
    · rw [if_neg hmem] at hb
      cases hb
  have hplain : ∀ b c, (if b ∈ names then some Color.white else none) = some c → c = .white := by
    intro b c hb
    split at hb <;> cases hb
    rfl
  obtain ⟨s', hs', hbrings, hblack⟩ := visitAll_brings names.toFinset hcard names
    (s := ⟨fun a => if a ∈ names then some .white else none, []⟩) hwhite hnone
    (fun b hb => by cases hplain b _ hb) fun a ha hcolor => by cases (if_pos ha).symm.trans hcolor
  refine ⟨s', hs', ⟨hbrings.cycle, fun hcycle hfound => ?_⟩, ?_⟩
  · obtain ⟨a, ha⟩ := hcycle
    obtain ⟨b, ⟨next, hnext, -⟩, -⟩ := Relation.TransGen.head'_iff.mp ha
    have hmem : a ∈ names := hsucc a (by rw [hnext]; exact fun h => by cases h)
    have hends := hbrings.ends hfound (fun b hb => by cases hplain b _ hb) a (hblack a hmem)
    · exact not_cycle_of_ends hends ha
  · obtain ⟨more, hmore, hreports⟩ := hbrings.grows.found
    rw [hmore, nil_append]
    exact hreports

end Laws

end Alt.Library.ColourSearch
