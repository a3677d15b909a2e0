import Maybenot.Serialize

namespace Maybenot
open Lib

namespace Codecs

/-- The contract of `Read`, for the bytes that are left in each decoder: a read takes some of
those from the front, and none only at the end. -/
def Reads (lib : Codecs) (left : lib.Decoder → List UInt8 → Prop) : Prop :=
  ∀ d bytes n, left d bytes → 0 < n →
    ∃ k, k ≤ n ∧ (bytes ≠ [] → 0 < k) ∧ (lib.read d n).1 = .ok (bytes.take k) ∧
      left (lib.read d n).2 (bytes.drop k)

/-- What the crates promise for one machine. -/
structure Keeps (lib : Codecs) (m : Machine) : Prop where
  bincode : lib.unbincode maxDecompressedSize (lib.bincode m) = .ok m
  /-- An encoding that was cut off is not decoded. -/
  cut : ∀ n < (lib.bincode m).length,
    ∃ e, lib.unbincode maxDecompressedSize ((lib.bincode m).take n) = .error e
  /-- A compressed stream has a header. -/
  header : lib.compress (lib.bincode m) ≠ []
  read : ∃ left, lib.Reads left ∧
    left (lib.decoder (lib.compress (lib.bincode m))) (lib.bincode m)
  base64 : lib.unbase64 (lib.base64 (lib.compress (lib.bincode m))) =
    some (lib.compress (lib.bincode m))
  ascii : isAscii (lib.base64 (lib.compress (lib.bincode m))) = true
  /-- Every three bytes are written as four characters, and so is what remains. -/
  length : (lib.base64 (lib.compress (lib.bincode m))).length =
    4 * (((lib.compress (lib.bincode m)).length + 2) / 3)

/-- The first read of the decoder gives all of the encoding. -/
def ReadsAtOnce (lib : Codecs) (m : Machine) : Prop :=
  (lib.read (lib.decoder (lib.compress (lib.bincode m))) maxDecompressedSize).1 =
    .ok (lib.bincode m)

end Codecs

theorem length_le_utf8Len (s : List Char) : s.length ≤ utf8Len s := by
  induction s with
  | nil => exact Nat.le_refl 0
  | cons c s ih =>
    have hc : 0 < c.utf8Size := c.utf8Size_pos
    have hsum : utf8Len (c :: s) = c.utf8Size + utf8Len s := List.sum_cons
    rw [List.length_cons, hsum]
    omega

namespace Machine

variable {R : Type} [RngCore R]

/-- Past the checks of the text, a machine is what the first read of its decoder decodes to. -/
theorem fromStr_text {lib : Codecs} {text : List Char} {compressed : List UInt8}
    (hascii : isAscii text = true) (hne : text ≠ []) (hbase : lib.unbase64 text = some compressed) :
    fromStr R lib (versionText ++ text) = (do
      let buf ← crateError (lib.read (lib.decoder compressed) maxDecompressedSize).1
      let m ← crateError (lib.unbincode maxDecompressedSize buf)
      m.validate R
      return m) := by
  have hlong : ¬ utf8Len (versionText ++ text) < 3 := by
    have hle := length_le_utf8Len (versionText ++ text)
    have hpos := List.length_pos_of_ne_nil hne
    rw [List.length_append, show versionText.length = 2 from rfl] at hle
    omega
  have hall : isAscii (versionText ++ text) = true := by
    unfold isAscii
    rw [List.all_append]
    exact Bool.and_eq_true_iff.mpr ⟨by decide, hascii⟩
  have htake : (versionText ++ text).take 2 = versionText := rfl
  have hdrop : (versionText ++ text).drop 2 = text := rfl
  unfold fromStr
  rw [if_neg hlong, if_neg (not_not.mpr hall), htake, hdrop, hbase]
  dsimp only
  rw [if_neg (not_not.mpr rfl)]

/-- A machine comes back from its text exactly if its decoder gives all of it in one read. -/
theorem serialize_round_trips {lib : Codecs} {m : Machine}
    (hnew : Machine.new R m.allowedPaddingPackets m.maxPaddingFrac m.allowedBlockedMicrosec
      m.maxBlockingFrac m.states = .ok m)
    (hlib : lib.Keeps m) (hsize : (lib.bincode m).length ≤ maxDecompressedSize) :
    ∃ s, m.serialize lib = some s ∧ (fromStr R lib s = .ok m ↔ lib.ReadsAtOnce m) := by
  have hvalid : m.validate R = .ok () := by
    obtain ⟨u, hu, _⟩ := bind_ok.mp hnew
    exact hu
  have hne : lib.base64 (lib.compress (lib.bincode m)) ≠ [] := by
    intro hnil
    have hlen := hlib.length
    have hpos := List.length_pos_of_ne_nil hlib.header
    rw [hnil, List.length_nil] at hlen
    omega
  refine ⟨_, if_pos hsize, ?_⟩
  rw [fromStr_text hlib.ascii hne hlib.base64]
  obtain ⟨left, hreads, hleft⟩ := hlib.read
  obtain ⟨k, _, _, hread, _⟩ := hreads _ _ maxDecompressedSize hleft (by decide)
  unfold Codecs.ReadsAtOnce
  rw [hread]
  by_cases hk : k < (lib.bincode m).length
  · -- the rest is never read, and the front of an encoding is not decoded
    obtain ⟨e, he⟩ := hlib.cut k hk
    constructor
    · intro h
      change crateError (lib.unbincode maxDecompressedSize ((lib.bincode m).take k)) >>= _ =
        .ok m at h
      rw [he] at h
      exact absurd h (by simp [crateError, Except.mapError, bind, Except.bind])
    · intro h
      have hlen := congrArg List.length (Except.ok.inj h)
      rw [List.length_take] at hlen
      omega
  · have htake : (lib.bincode m).take k = lib.bincode m :=
      List.take_of_length_le (not_lt.mp hk)
    rw [htake]
    refine iff_of_true ?_ rfl
    change (crateError (lib.unbincode maxDecompressedSize (lib.bincode m)) >>= fun m => do
      m.validate R
      return m) = .ok m
    rw [hlib.bincode]
    change (m.validate R >>= fun _ => pure m) = Except.ok m
    rw [hvalid]
    rfl

section Sole

/-- What the crates do with a machine, the bytes it is encoded as, the stream these are compressed
to and the text of that, where a read gives `chunk` bytes at most. -/
def soleCodecs (m : Machine) (bytes stream : List UInt8) (text : List Char) (chunk : Nat) :
    Codecs where
  bincode _ := bytes
  unbincode _ encoded := if encoded = bytes then .ok m else .error "unexpected end of file"
  Decoder := List UInt8
  compress _ := stream
  decoder _ := bytes
  read d n := (.ok (d.take (min chunk n)), d.drop (min chunk n))
  base64 _ := text
  unbase64 _ := some stream

theorem sole_keeps {m : Machine} {bytes stream : List UInt8} {text : List Char} {chunk : Nat}
    (h : 0 < chunk) (hheader : stream ≠ []) (hascii : isAscii text = true)
    (hlength : text.length = 4 * ((stream.length + 2) / 3)) :
    (soleCodecs m bytes stream text chunk).Keeps m where
  bincode := by simp [soleCodecs]
  cut n hn := by
    refine ⟨_, if_neg fun htake => ?_⟩
    have hlen := congrArg List.length htake
    rw [List.length_take] at hlen
    change n < bytes.length at hn
    change min n bytes.length = bytes.length at hlen
    omega
  header := hheader
  read := by
    refine ⟨fun d bytes => d = bytes, ?_, rfl⟩
    rintro d _ n rfl hn
    exact ⟨min chunk n, Nat.min_le_right _ _, fun _ => by omega, rfl, rfl⟩
  base64 := rfl
  ascii := hascii
  length := hlength

/-- A machine that does nothing. -/
def noop : Machine := .free [State.new fun _ => []]

def noopCodecs (chunk : Nat) : Codecs :=
  soleCodecs noop (List.replicate 18 0 ++ 1 :: List.replicate 16 0)
    [120, 218, 99, 96, 64, 7, 140, 232, 2, 0, 0, 52, 0, 2] "eNpjYEAHjOgCAAA0AAI=".toList chunk

theorem noop_keeps {chunk : Nat} (h : 0 < chunk) : (noopCodecs chunk).Keeps noop :=
  sole_keeps h (List.cons_ne_nil _ _) (by decide) (by decide)

/-- A machine that pads 20 ms after a packet was sent. -/
def padTwenty : Machine :=
  .free [
    .new fun
      | .normalSent => certain 1
      | _ => [],
    { State.new (fun _ => []) with
      action := some (.sendPadding false false ⟨.uniform ⟨0⟩ ⟨0⟩, Flt.ofRat 20000, ⟨0⟩⟩ none) }]

def padTwentyText : List Char :=
  "eNp1ibEJAEAIA5Nf7B3N0v1cSESwEL0m5A6YvBqSgP7WeXfM5UoBW7ICYg==".toList

def padTwentyCodecs : Codecs :=
  soleCodecs padTwenty
    (List.replicate 18 0 ++ [2] ++ List.replicate 6 0 ++ [1, 1, 1, 0, 0, 128, 63] ++
        List.replicate 9 0 ++ [1, 1] ++ List.replicate 24 0 ++ [136, 211, 64] ++
        List.replicate 24 0)
    [120, 218, 117, 137, 177, 9, 0, 64, 8, 3, 147, 95, 236, 29, 205, 210, 253, 92, 72, 68, 176,
      16, 189, 38, 228, 14, 152, 188, 26, 146, 128, 254, 214, 121, 119, 204, 229, 74, 1, 91, 178,
      2, 98]
    padTwentyText 1024

theorem padTwenty_keeps : padTwentyCodecs.Keeps padTwenty :=
  sole_keeps (by decide) (List.cons_ne_nil _ _) (by decide) (by decide)

theorem noop_new : Machine.new Unit noop.allowedPaddingPackets noop.maxPaddingFrac
    noop.allowedBlockedMicrosec noop.maxBlockingFrac noop.states = .ok noop := by decide +kernel

/-- With a decoder that gives everything at once the machine comes back. -/
theorem noop_round_trips : ∃ s, noop.serialize (noopCodecs 64) = some s ∧
    fromStr Unit (noopCodecs 64) s = .ok noop := by
  obtain ⟨s, hs, hiff⟩ := serialize_round_trips noop_new (noop_keeps (by decide : 0 < 64))
    (by decide)
  exact ⟨s, hs, hiff.mpr rfl⟩

/-- With a decoder that gives one byte at a time it does not. -/
theorem noop_cut_off : ∃ lib : Codecs, lib.Keeps noop ∧
    (lib.bincode noop).length ≤ maxDecompressedSize ∧
    Machine.new Unit noop.allowedPaddingPackets noop.maxPaddingFrac noop.allowedBlockedMicrosec
      noop.maxBlockingFrac noop.states = .ok noop ∧
    ∃ s, noop.serialize lib = some s ∧
      fromStr Unit lib s = .error (.machine ⟨"unexpected end of file", []⟩) :=
  ⟨noopCodecs 1, noop_keeps (by decide), by decide, noop_new, _, rfl, by decide +kernel⟩

end Sole

end Machine

end Maybenot
