import TensorFlowCore.Lib.Core.Coding

/-!
# WAV files

`EncodeAudioAsS16LEWav` of `tensorflow/core/lib/wav/wav_io.cc`. Sizes are `size_t`, whose products
wrap around. The samples are of any type, with the conversion `FloatToInt16Sample` to 16 bits given.

A call that stores outside of its string, reads outside of the audio or throws has no outcome. A
call that returns OK stored all samples behind the header, so that no size it wrote wraps
(`length_of_encodeAudioAsS16LEWav`). What may fail is the product of the frames with the channels,
and `bytes_per_second`, from which the channels are missing: the header is what it should be exactly
for one channel and a sample rate below `2 ^ 31` (`isConsistent_iff`).
-/

namespace TensorFlowCore.Wav

open List Option

variable {F : Type} {floatToInt16Sample : F → Int16}

/-- `core::EncodeFixed16`, the same bytes on either kind of host. -/
def encodeFixed16 (value : UInt16) : ByteString :=
  [(value &&& 0xff).toUInt8, ((value >>> 8) &&& 0xff).toUInt8]

/-- Bytes stored at an offset of a string, inside of which they have to lie. -/
def store (s : ByteString) (offset : ℕ) (bytes : ByteString) : Option ByteString :=
  if offset + bytes.length ≤ s.length then
    some (s.take offset ++ bytes ++ s.drop (offset + bytes.length))
  else none

/-- The fields of a packed record, stored one after the other. -/
def storeFields (s : ByteString) (offset : ℕ) : List ByteString → Option ByteString
  | [] => some s
  | bytes :: fields =>
    (store s offset bytes).bind fun s ↦ storeFields s (offset + bytes.length) fields

/-- `std::string::resize`. -/
def resize (s : ByteString) (n : ℕ) : ByteString := s.take n ++ List.replicate (n - s.length) 0

/-- `kuint32max`. -/
def kuint32max : UInt64 := 0xffffffff

/-- `kuint16max`. -/
def kuint16max : UInt64 := 0xffff

/-- `sizeof(WavHeader)`. -/
def kHeaderSize : UInt64 := 44

/-- `kBitsPerSample`. -/
def kBitsPerSample : UInt64 := 16

/-- `kBytesPerSample`. -/
def kBytesPerSample : UInt64 := kBitsPerSample / 8

/-- The fields of `WavHeader` as they are filled in. -/
def headerFields (sampleRate numChannels bytesPerSecond bytesPerFrame dataSize fileSize : UInt64) :
    List ByteString :=
  [ascii "RIFF", encodeFixed32 (fileSize - 8).toUInt32, ascii "WAVE",
    ascii "fmt ", encodeFixed32 16, encodeFixed16 1, encodeFixed16 numChannels.toUInt16,
    encodeFixed32 sampleRate.toUInt32, encodeFixed32 bytesPerSecond.toUInt32,
    encodeFixed16 bytesPerFrame.toUInt16, encodeFixed16 kBitsPerSample.toUInt16,
    ascii "data", encodeFixed32 dataSize.toUInt32]

/-- The loop that writes the audio, with `n` samples to go. -/
def writeSamples (floatToInt16Sample : F → Int16) (audio : List F) :
    (n i : ℕ) → ByteString → Option ByteString
  | 0, _, data => some data
  | n + 1, i, data =>
    audio[i]?.bind fun x ↦
      (store data (44 + i * 2 % 2 ^ 64) (encodeFixed16 (floatToInt16Sample x).toUInt16)).bind
        (writeSamples floatToInt16Sample audio n (i + 1))

/-- `wav::EncodeAudioAsS16LEWav`. A null pointer is `none`. -/
def encodeAudioAsS16LEWav (floatToInt16Sample : F → Int16) (audio : Option (List F))
    (sampleRate numChannels numFrames : UInt64) (wavString : Option ByteString) :
    Option (Except Status ByteString) :=
  match audio, wavString with
  | none, _ => some (.error (invalidArgument [ascii "audio is null"]))
  | some _, none => some (.error (invalidArgument [ascii "wav_string is null"]))
  | some audio, some wavString =>
    if sampleRate = 0 ∨ sampleRate > kuint32max then
      some (.error (invalidArgument [ascii "sample_rate must be in (0, 2^32), got: ",
        decimal sampleRate.toNat]))
    else if numChannels = 0 ∨ numChannels > kuint16max then
      some (.error (invalidArgument [ascii "num_channels must be in (0, 2^16), got: ",
        decimal numChannels.toNat]))
    else if numFrames = 0 then
      some (.error (invalidArgument [ascii "num_frames must be positive."]))
    else
      let bytesPerSecond := sampleRate * kBytesPerSample
      let numSamples := numFrames * numChannels
      let dataSize := numSamples * kBytesPerSample
      let fileSize := kHeaderSize + numSamples * kBytesPerSample
      let bytesPerFrame := kBytesPerSample * numChannels
      if fileSize > kuint32max then
        some (.error (invalidArgument
          [ascii "Provided channels and frames cannot be encoded as a WAV."]))
      else
        let data := resize wavString fileSize.toNat
        -- `wav_string->at(0)` throws on an empty string
        if data = [] then none
        else
          (storeFields data 0 (headerFields sampleRate numChannels bytesPerSecond bytesPerFrame
            dataSize
            fileSize)).bind fun data ↦
              (writeSamples floatToInt16Sample audio numSamples.toNat 0 data).map .ok

/-- The number in a field of a file, the least significant byte first. -/
def field (file : ByteString) (offset width : ℕ) : ℕ := littleEndian ((file.drop offset).take width)

/-- A file says of itself what it should, with all numbers taken over the integers. -/
structure IsConsistent (rate channels frames : ℕ) (file : ByteString) : Prop where
  length : file.length = 44 + 2 * channels * frames
  riffSize : field file 4 4 + 8 = file.length
  dataSize : field file 40 4 + 44 = file.length
  channelNumbers : field file 22 2 = channels
  sampleRate : field file 24 4 = rate
  bytesPerFrame : field file 32 2 = 2 * channels
  bytesPerSecond : field file 28 4 = rate * (2 * channels)

/-! ### Stores -/

theorem length_store {s t bytes : ByteString} {offset : ℕ} (h : store s offset bytes = some t) :
    offset + bytes.length ≤ s.length ∧ t.length = s.length := by
  rw [store] at h
  split at h
  · next hfit =>
    refine ⟨hfit, ?_⟩
    rw [← some.inj h, length_append, length_append, length_take, length_drop]
    omega
  · cases h

/-- A store behind what is kept. -/
theorem store_append (done s bytes : ByteString) (h : bytes.length ≤ s.length) :
    store (done ++ s) done.length bytes = some (done ++ bytes ++ s.drop bytes.length) := by
  have hfit : done.length + bytes.length ≤ (done ++ s).length := by
    rw [length_append]
    omega
  rw [store, if_pos hfit, take_left, drop_append, Nat.add_sub_cancel_left,
    drop_eq_nil_of_le (Nat.le_add_right _ _), nil_append]

theorem take_store {s t bytes : ByteString} {offset k : ℕ} (h : store s offset bytes = some t)
    (hk : k ≤ offset) : t.take k = s.take k := by
  have hfit := (length_store h).1
  rw [store, if_pos hfit, some_inj] at h
  have hmin : k ≤ (s.take offset).length := by
    rw [length_take]
    omega
  rw [← h, append_assoc, take_append_of_le_length hmin, take_take, Nat.min_eq_left hk]

/-- Fields stored behind what is kept. -/
theorem storeFields_append (done s : ByteString) (fields : List ByteString) {t : ByteString}
    (h : storeFields (done ++ s) done.length fields = some t) :
    fields.flatten.length ≤ s.length ∧
      t = done ++ fields.flatten ++ s.drop fields.flatten.length := by
  induction fields generalizing done s with
  | nil =>
    have ht := some.inj h
    simp [← ht]
  | cons bytes fields ih =>
    obtain ⟨s', hs', ht⟩ := bind_eq_some_iff.1 h
    have hfit := (length_store hs').1
    rw [length_append] at hfit
    rw [store_append done s bytes (by omega), some_inj] at hs'
    rw [← hs', ← length_append] at ht
    obtain ⟨hle, ht⟩ := ih _ _ ht
    rw [length_drop] at hle
    refine ⟨?_, ?_⟩
    · rw [flatten_cons, length_append]
      omega
    · rw [ht, flatten_cons, length_append, drop_drop, append_assoc done]

/-! ### Samples -/

/-- Samples that are stored lie in the string, behind the header, which they leave as it is. -/
theorem writeSamples_spec (audio : List F) {n i : ℕ} {data t : ByteString}
    (h : writeSamples floatToInt16Sample audio n i data = some t) :
    t.length = data.length ∧ t.take 44 = data.take 44 ∧
      ∀ j, i ≤ j → j < i + n → 44 + j * 2 % 2 ^ 64 + 2 ≤ data.length := by
  induction n generalizing i data with
  | zero =>
    rw [← some.inj h]
    exact ⟨rfl, rfl, fun j hlo hhi ↦ absurd hhi (Nat.not_lt.2 hlo)⟩
  | succ n ih =>
    obtain ⟨x, -, h⟩ := bind_eq_some_iff.1 h
    obtain ⟨data', hstore, h⟩ := bind_eq_some_iff.1 h
    obtain ⟨hfit, hlen⟩ := length_store hstore
    obtain ⟨hlen', htake, hall⟩ := ih h
    refine ⟨hlen'.trans hlen, htake.trans (take_store hstore (Nat.le_add_right _ _)),
      fun j hlo hhi ↦ ?_⟩
    obtain rfl | hlt := Nat.eq_or_lt_of_le hlo
    · exact hfit
    · exact hlen ▸ hall j hlt (by omega)

/-! ### Fields -/

theorem littleEndian_encodeFixed16 (v : UInt16) : littleEndian (encodeFixed16 v) = v.toNat := by
  have hmask : (0xff : UInt16).toNat = 2 ^ 8 - 1 := rfl
  have hv : v.toNat < 2 ^ 16 := v.toNat_lt
  have h₀ : (v &&& 0xff).toUInt8.toNat = v.toNat % 256 := by
    rw [UInt16.toNat_toUInt8, UInt16.toNat_and, hmask, Nat.and_two_pow_sub_one_eq_mod]
    exact Nat.mod_mod _ _
  have h₁ : ((v >>> 8) &&& 0xff).toUInt8.toNat = v.toNat / 256 % 256 := by
    rw [UInt16.toNat_toUInt8, UInt16.toNat_and, hmask, Nat.and_two_pow_sub_one_eq_mod,
      UInt16.toNat_shiftRight, Nat.shiftRight_eq_div_pow]
    exact Nat.mod_mod _ _
  simp only [encodeFixed16, littleEndian, h₀, h₁]
  omega

variable {sampleRate numChannels bytesPerSecond bytesPerFrame dataSize fileSize : UInt64}
  {file : ByteString}

theorem length_headerFields : (headerFields sampleRate numChannels bytesPerSecond bytesPerFrame
    dataSize fileSize).flatten.length = 44 := by
  simp [headerFields, ascii, encodeFixed32, encodeFixed16]

/-- The numbers in the fields of a header, each cut to its width. -/
theorem field_headerFields (h : file.take 44 = (headerFields sampleRate numChannels bytesPerSecond
    bytesPerFrame dataSize fileSize).flatten) :
    field file 4 4 = (fileSize - 8).toUInt32.toNat ∧ field file 22 2 = numChannels.toUInt16.toNat ∧
      field file 24 4 = sampleRate.toUInt32.toNat ∧
      field file 28 4 = bytesPerSecond.toUInt32.toNat ∧
      field file 32 2 = bytesPerFrame.toUInt16.toNat ∧
      field file 40 4 = dataSize.toUInt32.toNat := by
  have hfield : ∀ offset width, offset + width ≤ 44 →
      field file offset width = field (file.take 44) offset width := fun offset width hle ↦ by
    rw [field, field, drop_take, take_take, Nat.min_eq_left (by omega)]
  simp only [← littleEndian_encodeFixed32, ← littleEndian_encodeFixed16]
  refine ⟨?_, ?_, ?_, ?_, ?_, ?_⟩ <;> rw [hfield _ _ (by decide), h, field] <;>
    simp [headerFields, ascii, encodeFixed32, encodeFixed16]

/-! ### The file -/

section File

variable {audio : Option (List F)} {numFrames : UInt64} {wavString : Option ByteString}

section

variable
  (h : encodeAudioAsS16LEWav floatToInt16Sample audio sampleRate numChannels numFrames wavString =
    some (.ok file))
include h

/-- What a call that returns OK has checked and stored. -/
theorem stores_of_encodeAudioAsS16LEWav : (0 < sampleRate.toNat ∧ sampleRate.toNat < 2 ^ 32) ∧
      (0 < numChannels.toNat ∧ numChannels.toNat < 2 ^ 16) ∧
      kHeaderSize + numFrames * numChannels * kBytesPerSample ≤ kuint32max ∧
      ∃ (samples : List F) (s data : ByteString),
        s.length = (kHeaderSize + numFrames * numChannels * kBytesPerSample).toNat ∧
        storeFields s 0 (headerFields sampleRate numChannels (sampleRate * kBytesPerSample)
          (kBytesPerSample * numChannels) (numFrames * numChannels * kBytesPerSample)
          (kHeaderSize + numFrames * numChannels * kBytesPerSample)) = some data ∧
        writeSamples floatToInt16Sample samples (numFrames * numChannels).toNat 0 data =
          some file := by
  have hpos : ∀ v : UInt64, v ≠ 0 → 0 < v.toNat := fun v hv ↦
    Nat.pos_of_ne_zero fun hz ↦ hv (UInt64.toNat_inj.1 hz)
  rw [encodeAudioAsS16LEWav.eq_def] at h
  split at h
  · cases h
  · cases h
  · next samples s =>
    dsimp only at h
    split_ifs at h with hrate hchannels hframes hsize hempty
    · cases h
    · cases h
    · cases h
    · cases h
    · obtain ⟨data, hdata, h⟩ := bind_eq_some_iff.1 h
      obtain ⟨file', hfile, heq⟩ := map_eq_some_iff.1 h
      cases heq
      rw [not_or] at hrate hchannels
      refine ⟨⟨hpos _ hrate.1, ?_⟩, ⟨hpos _ hchannels.1, ?_⟩, UInt64.not_lt.1 hsize, samples,
        _, data,
        ?_, hdata, hfile⟩
      · exact Nat.lt_succ_of_le (UInt64.le_iff_toNat_le.1 (UInt64.not_lt.1 hrate.2))
      · exact Nat.lt_succ_of_le (UInt64.le_iff_toNat_le.1 (UInt64.not_lt.1 hchannels.2))
      · rw [resize, length_append, length_take, length_replicate]
        omega

/-- A file that is returned has the bytes of the header before those of the samples, of which there
are as many as `size_t` says, and its size fits 32 bits. -/
theorem length_of_encodeAudioAsS16LEWav :
    file.length = 44 + 2 * (numFrames * numChannels).toNat ∧ file.length < 2 ^ 32 ∧
      file.take 44 = (headerFields sampleRate numChannels (sampleRate * kBytesPerSample)
        (kBytesPerSample * numChannels) (numFrames * numChannels * kBytesPerSample)
        (kHeaderSize + numFrames * numChannels * kBytesPerSample)).flatten := by
  obtain ⟨-, -, hsize, samples, s, data, hlen, hdata, hfile⟩ := stores_of_encodeAudioAsS16LEWav h
  obtain ⟨hheader, hdata⟩ := storeFields_append [] s _ hdata
  obtain ⟨hkeep, htake, hfit⟩ := writeSamples_spec samples hfile
  rw [length_headerFields] at hheader hdata
  have hdatalen : data.length = s.length := by
    rw [hdata, nil_append, length_append, length_headerFields, length_drop]
    omega
  have hsize' : (kHeaderSize + numFrames * numChannels * kBytesPerSample).toNat < 2 ^ 32 :=
    Nat.lt_succ_of_le (UInt64.le_iff_toNat_le.1 hsize)
  have hwrap : (kHeaderSize + numFrames * numChannels * kBytesPerSample).toNat =
      (44 + (numFrames * numChannels).toNat * 2 % 2 ^ 64) % 2 ^ 64 := by
    rw [UInt64.toNat_add, UInt64.toNat_mul _ kBytesPerSample]
    rfl
  have hlt := (numFrames * numChannels).toNat_lt
  have hlength : s.length = 44 + 2 * (numFrames * numChannels).toNat := by
    -- a size that wrapped leaves no room for the sample right behind the end of the string
    by_contra hne
    have hroom := hfit ((s.length - 44) / 2) (Nat.zero_le _) (by omega)
    omega
  refine ⟨by omega, by omega, ?_⟩
  rw [htake, hdata, nil_append]
  exact take_left' length_headerFields

end

/-- The header is what it should be exactly for one channel and a sample rate whose bytes per second
fit their field. -/
theorem isConsistent_iff
    (h : encodeAudioAsS16LEWav floatToInt16Sample audio sampleRate numChannels numFrames wavString =
      some (.ok file)) :
    IsConsistent sampleRate.toNat numChannels.toNat numFrames.toNat file ↔
      numChannels.toNat = 1 ∧ sampleRate.toNat < 2 ^ 31 := by
  obtain ⟨⟨hrate, hrate'⟩, ⟨hchannels, hchannels'⟩, -, -⟩ := stores_of_encodeAudioAsS16LEWav h
  obtain ⟨hlength, hlt, htake⟩ := length_of_encodeAudioAsS16LEWav h
  obtain ⟨hriff, hnum, hsample, hsecond, hframe, hdata⟩ := field_headerFields htake
  have hbps : kBytesPerSample.toNat = 2 := rfl
  have hheader : kHeaderSize.toNat = 44 := rfl
  rw [UInt64.toNat_toUInt32, UInt64.toNat_mul, hbps, Nat.mod_eq_of_lt (a := _ * 2) (by omega)]
    at hsecond
  constructor
  · intro hc
    -- the field is at most twice the sample rate
    have hsecond' := hc.bytesPerSecond
    have hle : sampleRate.toNat * 2 % 2 ^ 32 ≤ sampleRate.toNat * 2 := Nat.mod_le _ _
    have hmul : sampleRate.toNat * 2 * numChannels.toNat = sampleRate.toNat *
        (2 * numChannels.toNat) :=
      Nat.mul_assoc _ _ _
    have hone : numChannels.toNat ≤ 1 := by
      refine Nat.le_of_mul_le_mul_left (c := sampleRate.toNat * 2) ?_ (by omega)
      omega
    have hchannel : numChannels.toNat = 1 := by omega
    refine ⟨hchannel, ?_⟩
    rw [hsecond, hchannel] at hsecond'
    omega
  · rintro ⟨hchannel, hrate⟩
    have hframes : (numFrames * numChannels).toNat = numFrames.toNat := by
      rw [UInt64.toNat_mul, hchannel, Nat.mul_one, Nat.mod_eq_of_lt numFrames.toNat_lt]
    rw [hframes] at hlength
    have hdataSize : (numFrames * numChannels * kBytesPerSample).toNat = 2 * numFrames.toNat := by
      rw [UInt64.toNat_mul, hframes, hbps, Nat.mod_eq_of_lt (by omega)]
      omega
    have hfileSize : (kHeaderSize + numFrames * numChannels * kBytesPerSample).toNat =
        44 + 2 * numFrames.toNat := by
      rw [UInt64.toNat_add, hdataSize, hheader, Nat.mod_eq_of_lt (by omega)]
    have hriffSize : (kHeaderSize + numFrames * numChannels * kBytesPerSample - 8).toNat =
        36 + 2 * numFrames.toNat := by
      have hle : 8 ≤ kHeaderSize + numFrames * numChannels * kBytesPerSample := by
        rw [UInt64.le_iff_toNat_le, hfileSize]
        exact Nat.le_add_right_of_le (by decide)
      rw [UInt64.toNat_sub_of_le _ _ hle, hfileSize]
      show 44 + 2 * numFrames.toNat - 8 = _
      omega
    rw [UInt64.toNat_toUInt32, hriffSize, Nat.mod_eq_of_lt (by omega)] at hriff
    rw [UInt64.toNat_toUInt32, hdataSize, Nat.mod_eq_of_lt (by omega)] at hdata
    rw [UInt64.toNat_toUInt16, hchannel] at hnum
    rw [UInt64.toNat_toUInt32, Nat.mod_eq_of_lt hrate'] at hsample
    rw [UInt64.toNat_toUInt16, UInt64.toNat_mul, hbps, hchannel] at hframe
    exact {
      length := by rw [hlength, hchannel]
      riffSize := by omega
      dataSize := by omega
      channelNumbers := hnum.trans hchannel.symm
      sampleRate := hsample
      bytesPerFrame := by rw [hframe, hchannel]
      bytesPerSecond := by
        rw [hsecond, hchannel]
        omega }

end File

/-- A frame of one channel. -/
theorem isConsistent_mono : ∃ file,
    encodeAudioAsS16LEWav id (some [1]) 8000 1 1 (some []) = some (.ok file) ∧
      IsConsistent 8000 1 1 file := by
  have h : encodeAudioAsS16LEWav id (some [1]) 8000 1 1 (some []) =
      some (.ok ((headerFields 8000 1 16000 2 2 46).flatten ++ [1, 0])) := by decide
  exact ⟨_, h, (isConsistent_iff h).2 ⟨rfl, by decide⟩⟩

/-- A frame of two channels has `32000` bytes per second, of which the header has half. -/
theorem not_isConsistent_stereo :
    ¬∀ (samples : List Int16) (sampleRate numChannels numFrames : UInt64) (file : ByteString),
      encodeAudioAsS16LEWav id (some samples) sampleRate numChannels numFrames (some []) =
        some (.ok file) →
      IsConsistent sampleRate.toNat numChannels.toNat numFrames.toNat file := by
  intro h
  have hstereo : encodeAudioAsS16LEWav id (some [1, 2]) 8000 2 1 (some []) =
      some (.ok ((headerFields 8000 2 16000 4 4 48).flatten ++ [1, 0, 2, 0])) := by decide
  exact absurd (h [1, 2] 8000 2 1 _ hstereo).bytesPerSecond (by decide)

end TensorFlowCore.Wav
