import Alt.Wire.Push
import Mathlib.Data.List.Basic

namespace Alt.Wire

open Alt.Library List

/-!
# Streams of frames

Encoders write frames one after the other; parsers are loops that read a frame, look at it, and
go on or leave.

* `frames_round_trip` — frames that fit a line are read back as they were written;
* `readAll` — such a loop, with what one turn does as its argument; `readAll_run` is the rule
  for what a loop makes of frames that were written;
* `trimNewline_line` — a text line is read back without its line feed, if it does not end in
  another one.
-/

/-! ### Frames -/

/-- Writes a delimiter packet. -/
def writeDelim (w : Bytes) : Bytes := w ++ [0x30, 0x30, 0x30, 0x31]

/-- Writes a response-end packet. -/
def writeResponseEnd (w : Bytes) : Bytes := w ++ [0x30, 0x30, 0x30, 0x32]

def writeFrame (w : Bytes) : Frame → Option Bytes
  | .data payload => writeData w payload
  | .flush => some (writeFlush w)
  | .delim => some (writeDelim w)
  | .responseEnd => some (writeResponseEnd w)

def writeFrames (w : Bytes) (frames : List Frame) : Option Bytes := frames.foldlM writeFrame w

/-- Reads `n` frames. -/
def readFrames : Nat → Bytes → Except PktError (List Frame × Bytes)
  | 0, r => .ok ([], r)
  | n + 1, r => do
    let (frame, r) ← readFrame r
    let (frames, r) ← readFrames n r
    return (frame :: frames, r)

/-- A data frame's payload fits a line. -/
def Frame.Fits : Frame → Prop
  | .data payload => payload.length ≤ maxPayload
  | _ => True

/-- The bytes of a frame. -/
def frameBytes : Frame → Bytes
  | .data payload => hex4 (payload.length + 4) ++ payload
  | .flush => [0x30, 0x30, 0x30, 0x30]
  | .delim => [0x30, 0x30, 0x30, 0x31]
  | .responseEnd => [0x30, 0x30, 0x30, 0x32]

/-- The bytes of frames. -/
def streamBytes (frames : List Frame) : Bytes := frames.flatMap frameBytes

@[simp] theorem streamBytes_nil : streamBytes [] = [] := rfl

@[simp] theorem streamBytes_cons (f : Frame) (fs : List Frame) :
    streamBytes (f :: fs) = frameBytes f ++ streamBytes fs := rfl

theorem length_frameBytes (f : Frame) : 4 ≤ (frameBytes f).length := by
  cases f with
  | data payload => rw [frameBytes, length_append, length_hex4]; omega
  | flush => exact le_rfl
  | delim => exact le_rfl
  | responseEnd => exact le_rfl

theorem length_le_streamBytes (fs : List Frame) : fs.length ≤ (streamBytes fs).length := by
  induction fs with
  | nil => exact le_rfl
  | cons f fs ih =>
    have := length_frameBytes f
    rw [streamBytes_cons, length_append, length_cons]
    omega

theorem writeFrame_eq {f : Frame} (h : f.Fits) (w : Bytes) :
    writeFrame w f = some (w ++ frameBytes f) := by
  cases f with
  | data payload =>
    rw [Frame.Fits] at h
    rw [writeFrame, writeData, if_pos h, frameBytes, append_assoc]
  | flush => rfl
  | delim => rfl
  | responseEnd => rfl

theorem readFrame_frameBytes {f : Frame} (h : f.Fits) (rest : Bytes) :
    readFrame (frameBytes f ++ rest) = .ok (f, rest) := by
  cases f with
  | data payload => exact readFrame_data h rest
  | flush => rfl
  | delim => rfl
  | responseEnd => rfl

theorem writeFrames_eq {fs : List Frame} (h : ∀ f ∈ fs, f.Fits) (w : Bytes) :
    writeFrames w fs = some (w ++ streamBytes fs) := by
  induction fs generalizing w with
  | nil => simp [writeFrames]
  | cons f fs ih =>
    have hrest := ih (fun g hg => h g (mem_cons_of_mem _ hg)) (w ++ frameBytes f)
    rw [writeFrames] at hrest ⊢
    rw [foldlM_cons, writeFrame_eq (h f mem_cons_self), Option.bind_eq_bind,
      Option.bind_some, hrest, streamBytes_cons, append_assoc]

/-- Lines are data frames. -/
theorem writeLines_eq {lines : List Bytes} (h : ∀ line ∈ lines, line.length ≤ maxPayload)
    (w : Bytes) : writeLines w lines = some (w ++ streamBytes (lines.map Frame.data)) := by
  have hframes : writeLines w lines = writeFrames w (lines.map Frame.data) := by
    rw [writeLines, writeFrames, foldlM_map]
    rfl
  rw [hframes]
  refine writeFrames_eq (fun f hf => ?_) w
  obtain ⟨line, hline, rfl⟩ := mem_map.mp hf
  exact h line hline

/-- **Frames decode to themselves**, whatever follows them. -/
theorem frames_round_trip {fs : List Frame} (h : ∀ f ∈ fs, f.Fits) (rest : Bytes) :
    ∃ w, writeFrames [] fs = some w ∧ readFrames fs.length (w ++ rest) = .ok (fs, rest) := by
  refine ⟨streamBytes fs, by rw [writeFrames_eq h, nil_append], ?_⟩
  induction fs with
  | nil => rfl
  | cons f fs ih =>
    have hframe := readFrame_frameBytes (h f mem_cons_self) (streamBytes fs ++ rest)
    have hrest := ih fun g hg => h g (mem_cons_of_mem _ hg)
    rw [length_cons, readFrames, streamBytes_cons, append_assoc, hframe]
    simp only [bind, Except.bind, hrest]
    rfl

/-! ### Reading loops -/

/-- What one turn of a loop ends with. -/
inductive Turn (σ : Type)
  | next (s : σ)
  | leave (s : σ)

section Loop

variable {σ ε : Type} (lift : PktError → ε) (step : σ → Frame → Except ε (Turn σ))

/-- Reads frames until a turn leaves; every frame takes at least one byte. -/
def readLoop : Nat → Bytes → σ → Except ε (σ × Bytes)
  | 0, _, _ => .error (lift .io)
  | fuel + 1, r, s =>
    match readFrame r with
    | .error e => .error (lift e)
    | .ok (frame, rest) =>
      match step s frame with
      | .error e => .error e
      | .ok (.next s) => readLoop fuel rest s
      | .ok (.leave s) => .ok (s, rest)

def readAll (r : Bytes) (s : σ) : Except ε (σ × Bytes) := readLoop lift step (r.length + 1) r s

/-- The turns over these frames go on, from one state to another. -/
inductive Goes : σ → List Frame → σ → Prop
  | done (s : σ) : Goes s [] s
  | turn {s s' s'' : σ} {f : Frame} {fs : List Frame} :
      step s f = .ok (.next s') → Goes s' fs s'' → Goes s (f :: fs) s''

variable {lift step} {s s' s'' : σ} {fs fs' : List Frame} {f : Frame}

theorem Goes.append (h : Goes step s fs s') (h' : Goes step s' fs' s'') :
    Goes step s (fs ++ fs') s'' := by
  induction h with
  | done => exact h'
  | turn hstep _ ih => exact .turn hstep (ih h')

/-- The frames that go on leave the loop at what follows them. -/
theorem readLoop_goes (hgoes : Goes step s fs s') (hfs : ∀ f ∈ fs, f.Fits) (rest : Bytes) {fuel : Nat}
    (hfuel : fs.length < fuel) :
    ∃ n, readLoop lift step fuel (streamBytes fs ++ rest) s = readLoop lift step (n + 1) rest s' := by
  obtain ⟨fuel, rfl⟩ : ∃ n, fuel = n + 1 := ⟨fuel - 1, by omega⟩
  induction hgoes generalizing fuel with
  | done s => exact ⟨fuel, rfl⟩
  | @turn s s₁ s₂ g gs hstep _ ih =>
    rw [length_cons] at hfuel
    obtain ⟨fuel, rfl⟩ : ∃ n, fuel = n + 1 := ⟨fuel - 1, by omega⟩
    rw [streamBytes_cons, append_assoc, readLoop, readFrame_frameBytes (hfs g mem_cons_self)]
    simp only [hstep]
    exact ih (fun x hx => hfs x (mem_cons_of_mem _ hx)) fuel (by omega)

theorem readAll_goes (hgoes : Goes step s fs s') (hfs : ∀ f ∈ fs, f.Fits) (rest : Bytes) :
    ∃ n, readAll lift step (streamBytes fs ++ rest) s = readLoop lift step (n + 1) rest s' := by
  refine readLoop_goes hgoes hfs rest ?_
  have hlen := length_le_streamBytes fs
  rw [length_append]
  omega

/-- **What a loop makes of written frames**: it goes over those that go on, leaves at the one
that leaves, and the rest is not touched. -/
theorem readAll_run (hgoes : Goes step s fs s') (hfs : ∀ f ∈ fs, f.Fits)
    (hleave : step s' f = .ok (.leave s'')) (hf : f.Fits) (rest : Bytes) :
    readAll lift step (streamBytes fs ++ (frameBytes f ++ rest)) s = .ok (s'', rest) := by
  obtain ⟨n, hn⟩ := readAll_goes hgoes hfs (frameBytes f ++ rest)
  rw [hn, readLoop, readFrame_frameBytes hf]
  simp only [hleave]

/-- A loop stops at the first frame that is refused. -/
theorem readAll_error {e : ε} (hgoes : Goes step s fs s') (hfs : ∀ f ∈ fs, f.Fits)
    (herror : step s' f = .error e) (hf : f.Fits) (rest : Bytes) :
    readAll lift step (streamBytes fs ++ (frameBytes f ++ rest)) s = .error e := by
  obtain ⟨n, hn⟩ := readAll_goes hgoes hfs (frameBytes f ++ rest)
  rw [hn, readLoop, readFrame_frameBytes hf]
  simp only [herror]

end Loop

/-! ### Text lines -/

/-- The text does not end in a line feed or carriage return. -/
def EndsClean (s : String) : Prop := ∀ c ∈ s.toList.getLast?, c ≠ '\n' ∧ c ≠ '\r'

theorem EndsClean.append {s t : String} (hs : EndsClean s) (ht : EndsClean t) : EndsClean (s ++ t) := by
  intro c hc
  rw [String.toList_append, getLast?_append] at hc
  cases hlast : t.toList.getLast? with
  | none =>
    rw [hlast] at hc
    exact hs c hc
  | some x =>
    rw [hlast] at hc
    exact ht c (hlast ▸ hc)

theorem endsClean_blank (s : String) : EndsClean (s ++ " ") := by
  intro c hc
  rw [String.toList_append, getLast?_append] at hc
  cases hc
  decide

theorem endsClean_of_forall {s : String} (h : ∀ c ∈ s.toList, c ≠ '\n' ∧ c ≠ '\r') : EndsClean s :=
  fun c hc => h c (mem_of_getLast? hc)

/-- A byte below 128 in the encoding of a character is that character. -/
theorem toNat_of_mem_utf8EncodeChar {c : Char} {b : UInt8} (h : b ∈ String.utf8EncodeChar c)
    (hb : b.toNat < 128) : c.toNat = b.toNat := by
  have hbyte : ∀ x, x < 256 → b = UInt8.ofNat x → b.toNat = x := by
    intro x hx heq
    rw [heq, UInt8.toNat_ofNat', Nat.mod_eq_of_lt hx]
  unfold String.utf8EncodeChar at h
  simp only at h
  -- one byte below 128, or bytes with the high bit set
  split at h
  · simp only [mem_cons, not_mem_nil, or_false] at h
    exact (hbyte _ (by omega) h).symm
  · split at h
    · simp only [mem_cons, not_mem_nil, or_false] at h
      rcases h with h | h
      all_goals
        have := hbyte _ (by omega) h
        omega
    · split at h
      · simp only [mem_cons, not_mem_nil, or_false] at h
        rcases h with h | h | h
        all_goals
          have := hbyte _ (by omega) h
          omega
      · simp only [mem_cons, not_mem_nil, or_false] at h
        rcases h with h | h | h | h
        all_goals
          have := hbyte _ (by omega) h
          omega

theorem utf8_concat (front : List Char) (c : Char) :
    utf8 (String.ofList (front ++ [c])) = utf8 (String.ofList front) ++ String.utf8EncodeChar c := by
  rw [utf8_ofList, utf8_ofList, flatMap_append, flatMap_singleton]

/-- The last byte of a text that ends in neither is no line feed and no carriage return. -/
theorem EndsClean.getLast? {s : String} (h : EndsClean s) :
    ∀ b ∈ (utf8 s).getLast?, b ≠ 10 ∧ b ≠ 13 := by
  rw [← String.ofList_toList (s := s)]
  rcases eq_nil_or_concat' s.toList with hnil | ⟨front, c, hconcat⟩
  · rw [hnil]
    intro b hb
    cases hb
  · have hc : c ≠ '\n' ∧ c ≠ '\r' := h c (by rw [hconcat, getLast?_concat]; rfl)
    intro b hb
    rw [hconcat, utf8_concat, getLast?_append] at hb
    have hmem : b ∈ String.utf8EncodeChar c := by
      cases hlast : (String.utf8EncodeChar c).getLast? with
      | none =>
        rw [getLast?_eq_none_iff] at hlast
        exact absurd hlast String.utf8EncodeChar_ne_nil
      | some x =>
        rw [hlast] at hb
        obtain rfl : x = b := Option.some.inj hb
        exact mem_of_getLast? hlast
    constructor
    · rintro rfl
      exact hc.1 (Char.ext (UInt32.toNat_inj.mp (toNat_of_mem_utf8EncodeChar hmem (by decide))))
    · rintro rfl
      exact hc.2 (Char.ext (UInt32.toNat_inj.mp (toNat_of_mem_utf8EncodeChar hmem (by decide))))

/-- A line feed is cut off a line, and no more if the line does not end in another. -/
theorem trimNewline_concat {line : Bytes} (h : ∀ b ∈ line.getLast?, b ≠ 10 ∧ b ≠ 13) :
    trimNewline (line ++ [10]) = line := by
  rcases eq_nil_or_concat' line with rfl | ⟨front, b, rfl⟩
  · rfl
  · have hb := h b (by rw [getLast?_concat]; rfl)
    rw [trimNewline, reverse_append, reverse_append]
    simp [hb.1, hb.2]

/-- **A text line** is read back without its line feed. -/
theorem trimNewline_line {s : String} (h : EndsClean s) : trimNewline (utf8 (s ++ "\n")) = utf8 s := by
  have hnl : utf8 "\n" = [10] := by decide
  rw [utf8_append, hnl]
  exact trimNewline_concat h.getLast?

/-- `strip_prefix`. -/
def stripPrefix (p s : String) : Option String :=
  (s.toList.dropPrefix? p.toList).map String.ofList

@[simp] theorem stripPrefix_append (p s : String) : stripPrefix p (p ++ s) = some s := by
  rw [stripPrefix, String.toList_append,
    dropPrefix?_append_of_beq s.toList (BEq.rfl : p.toList == p.toList)]
  simp

end Alt.Wire
