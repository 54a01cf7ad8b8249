import Alt.Library.FinMap
import Mathlib.Data.List.Infix

namespace Alt.Library

open List

/-!
# Library — keyed records stored in full or against a base

A store keeps for every key one current record: a full one, or a delta that names another
key as its base.  `Coding` says how records are read; nothing is said about what they are.

* `Resolves find k path v` — following base links from `k` through the keys of `path` ends
  at a full record, and decoding back up gives `v`;
* `Resolves.functional`, `Resolves.nodup` — the path is unique and repeats no key, so a
  resolved key lies on no cycle;
* `Resolves.supersede` — a new record of one key that decodes to the same value keeps what
  every other key resolves to.

A log of records gives `find` by the last record of a key (`newest`).  `Grounded` says that
everything in it resolves, with `Grounded.full` and `Grounded.delta` for the two ways it
grows.
-/

/-- How records are read: their key, the base they name, and how they decode. -/
structure Coding (κ ρ υ : Type) where
  key : ρ → κ
  base : ρ → Option κ
  decode : ρ → Option υ → Option υ

namespace Coding

variable {κ ρ υ : Type} (C : Coding κ ρ υ)

/-- Following base links from a key, through the keys of the path, gives a value. -/
inductive Resolves (find : κ → Option ρ) : κ → List κ → υ → Prop
  | full {k : κ} {r : ρ} {v : υ} :
      find k = some r → C.base r = none → C.decode r none = some v → Resolves find k [k] v
  | delta {k b : κ} {r : ρ} {path : List κ} {w v : υ} :
      find k = some r → C.base r = some b → Resolves find b path w → C.decode r (some w) = some v →
      Resolves find k (k :: path) v

variable {C} {find find' : κ → Option ρ}

variable {k : κ} {path : List κ} {v : υ}

/-- A resolved key has a record. -/
theorem Resolves.found (h : C.Resolves find k path v) :
    ∃ r, find k = some r := by
  cases h with
  | full hr _ _ => exact ⟨_, hr⟩
  | delta hr _ _ _ => exact ⟨_, hr⟩

/-- The path and the value are determined. -/
theorem Resolves.functional {path' : List κ} {v' : υ} (h : C.Resolves find k path v)
    (h' : C.Resolves find k path' v') : path = path' ∧ v = v' := by
  induction h generalizing path' v' with
  | full hr hb hd =>
    cases h' with
    | full hr' hb' hd' =>
      rw [hr] at hr'
      cases hr'
      rw [hd] at hd'
      exact ⟨rfl, Option.some.inj hd'⟩
    | delta hr' hb' _ _ =>
      rw [hr] at hr'
      cases hr'
      rw [hb] at hb'
      cases hb'
  | delta hr hb _ hd ih =>
    cases h' with
    | full hr' hb' _ =>
      rw [hr] at hr'
      cases hr'
      rw [hb] at hb'
      cases hb'
    | delta hr' hb' hw' hd' =>
      rw [hr] at hr'
      cases hr'
      rw [hb] at hb'
      cases hb'
      obtain ⟨rfl, rfl⟩ := ih hw'
      rw [hd] at hd'
      exact ⟨rfl, Option.some.inj hd'⟩

/-- Every key on the path resolves, by the rest of the path from there on. -/
theorem Resolves.suffix (h : C.Resolves find k path v) :
    ∀ x ∈ path, ∃ path' w, C.Resolves find x path' w ∧ path' <:+ path := by
  induction h with
  | full hr hb hd =>
    intro x hx
    obtain rfl := mem_singleton.mp hx
    exact ⟨_, _, .full hr hb hd, suffix_rfl⟩
  | delta hr hb hw hd ih =>
    intro x hx
    rcases mem_cons.mp hx with rfl | hx
    · exact ⟨_, _, .delta hr hb hw hd, suffix_rfl⟩
    · obtain ⟨path', w', hx', hsuf⟩ := ih x hx
      exact ⟨path', w', hx', hsuf.trans (suffix_cons _ _)⟩

/-- A key does not come back on the path of its base. -/
theorem Resolves.not_mem_base {b : κ} {r : ρ} {w : υ} (hr : find k = some r)
    (hb : C.base r = some b) (hw : C.Resolves find b path w) (hd : C.decode r (some w) = some v) :
    k ∉ path := by
  intro hk
  obtain ⟨path', w', hk', hsuf⟩ := hw.suffix k hk
  obtain ⟨rfl, -⟩ := hk'.functional (.delta hr hb hw hd)
  have hlen := hsuf.length_le
  rw [length_cons] at hlen
  omega

/-- **No cycles.** A path repeats no key. -/
theorem Resolves.nodup (h : C.Resolves find k path v) :
    path.Nodup := by
  induction h with
  | full _ _ _ => exact nodup_singleton _
  | delta hr hb hw hd ih => exact nodup_cons.mpr ⟨not_mem_base hr hb hw hd, ih⟩

/-- More records resolve no less. -/
theorem Resolves.mono (h : C.Resolves find k path v) (hle : ∀ x ∈ path, find' x = find x) :
    C.Resolves find' k path v := by
  induction h with
  | full hr hb hd => exact .full ((hle _ mem_cons_self).trans hr) hb hd
  | delta hr hb _ hd ih =>
    exact .delta ((hle _ mem_cons_self).trans hr) hb
      (ih fun x hx => hle x (mem_cons_of_mem _ hx)) hd

/-- **Superseding one record.** If the new record of `k₀` decodes to what the old one did,
    every key still resolves to the same value. -/
theorem Resolves.supersede {k₀ : κ} {path₀ path₀' : List κ} {v₀ : υ}
    (hne : ∀ x, x ≠ k₀ → find' x = find x) (hold : C.Resolves find k₀ path₀ v₀)
    (hnew : C.Resolves find' k₀ path₀' v₀) (h : C.Resolves find k path v) :
    ∃ path', C.Resolves find' k path' v := by
  induction h with
  | @full k r v hr hb hd =>
    by_cases hk : k = k₀
    · subst hk
      obtain ⟨-, rfl⟩ := hold.functional (.full hr hb hd)
      exact ⟨_, hnew⟩
    · exact ⟨_, .full ((hne k hk).trans hr) hb hd⟩
  | @delta k b r path w v hr hb hw hd ih =>
    by_cases hk : k = k₀
    · subst hk
      obtain ⟨-, rfl⟩ := hold.functional (.delta hr hb hw hd)
      exact ⟨_, hnew⟩
    · obtain ⟨path', hw'⟩ := ih
      exact ⟨_, .delta ((hne k hk).trans hr) hb hw' hd⟩

end Coding

/-! ### Logs of keyed records -/

namespace Coding

variable {κ ρ υ : Type} [DecidableEq κ] (C : Coding κ ρ υ)

/-- The last record of a key. -/
def newest (log : List ρ) (k : κ) : Option ρ := lastOf (log.map fun r => (C.key r, r)) k

/-- Everything in the log resolves, to a value that is right for its key. -/
def Grounded (right : κ → υ → Prop) (log : List ρ) : Prop :=
  ∀ k r, C.newest log k = some r → ∃ path v, C.Resolves (C.newest log) k path v ∧ right k v

variable {C} {right right' : κ → υ → Prop} {log log' : List ρ}

theorem newest_concat (log : List ρ) (r : ρ) (k : κ) :
    C.newest (log ++ [r]) k = if k = C.key r then some r else C.newest log k := by
  rw [newest, map_append, map_singleton, lastOf_concat]
  rfl

variable {r : ρ}

/-- The newest record of a key carries that key. -/
theorem key_newest {k : κ} (h : C.newest log k = some r) : C.key r = k ∧ r ∈ log := by
  obtain ⟨r', hr', heq⟩ := mem_map.mp (mem_of_lastOf h)
  cases heq
  exact ⟨rfl, hr'⟩

theorem Grounded.nil : C.Grounded right [] := by
  intro k r hr
  cases hr

theorem Grounded.imp (h : C.Grounded right log) (himp : ∀ k v, right k v → right' k v) :
    C.Grounded right' log := by
  intro k r hr
  obtain ⟨path, v, hres, hv⟩ := h k r hr
  exact ⟨path, v, hres, himp k v hv⟩

/-- Logs with the same newest records are grounded alike. -/
theorem Grounded.congr (h : C.Grounded right log) (heq : ∀ k, C.newest log' k = C.newest log k) :
    C.Grounded right log' := by
  have hfun : C.newest log' = C.newest log := funext heq
  unfold Grounded
  rw [hfun]
  exact h

/-- **A full record of a new key** keeps the log grounded. -/
theorem Grounded.full (h : C.Grounded right log) {v : υ} (hnew : C.newest log (C.key r) = none)
    (hb : C.base r = none) (hd : C.decode r none = some v) (hv : right (C.key r) v) :
    C.Grounded right (log ++ [r]) := by
  intro k r' hr'
  by_cases hk : k = C.key r
  · subst hk
    have hfind : C.newest (log ++ [r]) (C.key r) = some r := by rw [newest_concat, if_pos rfl]
    exact ⟨_, v, .full hfind hb hd, hv⟩
  · rw [newest_concat, if_neg hk] at hr'
    obtain ⟨path, w, hres, hw⟩ := h k r' hr'
    refine ⟨path, w, hres.mono ?_, hw⟩
    -- no path of the old log goes through the new key
    intro x hx
    have hne : x ≠ C.key r := by
      intro heq
      obtain ⟨path', w', hx', -⟩ := hres.suffix x hx
      obtain ⟨rx, hrx⟩ := hx'.found
      rw [heq, hnew] at hrx
      cases hrx
    rw [newest_concat, if_neg hne]

/-- **A delta against a base whose path avoids the key** keeps the log grounded, if it
    decodes to what the key held. -/
theorem Grounded.delta (h : C.Grounded right log) {b : κ} {path₀ path : List κ} {v w : υ}
    (hold : C.Resolves (C.newest log) (C.key r) path₀ v) (hb : C.base r = some b)
    (hw : C.Resolves (C.newest log) b path w) (havoid : C.key r ∉ path)
    (hd : C.decode r (some w) = some v) : C.Grounded right (log ++ [r]) := by
  have hne : ∀ x, x ≠ C.key r → C.newest (log ++ [r]) x = C.newest log x := by
    intro x hx
    rw [newest_concat, if_neg hx]
  have hw' : C.Resolves (C.newest (log ++ [r])) b path w := by
    apply hw.mono
    intro x hx
    exact hne x fun heq => havoid (heq ▸ hx)
  have hfind : C.newest (log ++ [r]) (C.key r) = some r := by rw [newest_concat, if_pos rfl]
  have hnew : C.Resolves (C.newest (log ++ [r])) (C.key r) (C.key r :: path) v :=
    .delta hfind hb hw' hd
  intro k r' hr'
  have hfound : ∃ r'', C.newest log k = some r'' := by
    by_cases hk : k = C.key r
    · exact hk ▸ hold.found
    · rw [hne k hk] at hr'
      exact ⟨r', hr'⟩
  obtain ⟨r'', hr''⟩ := hfound
  obtain ⟨path', u, hres, hu⟩ := h k r'' hr''
  obtain ⟨path'', hres'⟩ := Resolves.supersede hne hold hnew hres
  exact ⟨path'', u, hres', hu⟩

end Coding

end Alt.Library
