/-
The size of the parts of a multipart upload, and the uploads that are made of
the data of a backup.
-/
import Mathlib

namespace XBackup

namespace S3

def DEFAULT_PART_SIZE : Nat := 16 * 1024 * 1024

def TARGET_MAX_PARTS : Nat := 9500

/-- `u64::div_ceil` -/
def divCeil (n d : Nat) : Nat :=
  n / d + if n % d = 0 then 0 else 1

def USIZE_MAX : Nat := 2 ^ 64 - 1

/-- `usize::try_from(n).unwrap_or(usize::MAX)` -/
def saturate (n : Nat) : Nat :=
  if n ≤ USIZE_MAX then n else USIZE_MAX

/-- The size of a part, by a hint of how much is uploaded. -/
def computePartSize : Option Nat → Nat
  | none => DEFAULT_PART_SIZE
  | some len =>
      if len = 0 then DEFAULT_PART_SIZE
      else max (saturate (divCeil len TARGET_MAX_PARTS)) DEFAULT_PART_SIZE

/-- The sizes of the parts that `WriteMultipart` cuts a stream into. -/
def cut (partSize total : Nat) : List Nat :=
  List.replicate (total / partSize) partSize ++
    if total % partSize = 0 then [] else [total % partSize]

/-- The parts in which the chunks of a reader arrive. -/
def putStream (chunks : List Nat) (hint : Option Nat) : List Nat :=
  cut (computePartSize hint) chunks.sum

def DATA_FILE : String := "data.bin"
def MANIFEST_FILE : String := "manifest.json"
def MANIFEST_SHA_FILE : String := "manifest.json.sha256"

/-- The upload of a dump: what is stored is not known before its end. -/
def storeDumpStream (stored : List Nat) : String × List Nat :=
  (DATA_FILE, putStream stored none)

/-- The files of a backup, the data of which an empty increment does not have. -/
structure Artifact where
  data : Option (List Nat)
  manifest : List Nat
  sidecar : List Nat

def replicateArtifact (artifact : Artifact) : List (String × List Nat) :=
  (artifact.data.map fun chunks =>
    (DATA_FILE, putStream chunks none)).toList ++
  [(MANIFEST_FILE, putStream artifact.manifest none),
    (MANIFEST_SHA_FILE, putStream artifact.sidecar none)]

def MAX_PARTS : Nat := 10000
def MIN_PART : Nat := 5 * 1024 ^ 2
def MAX_PART : Nat := 5 * 1024 ^ 3
def MAX_OBJECT : Nat := 5 * 1024 ^ 4

/-- What S3 takes as the parts of one upload. -/
structure Fits (parts : List Nat) : Prop where
  count : parts.length ≤ MAX_PARTS
  least : ∀ part ∈ parts.dropLast, MIN_PART ≤ part
  most : ∀ part ∈ parts, part ≤ MAX_PART

section Parts

variable {partSize total : Nat}

theorem length_cut : (cut partSize total).length = divCeil total partSize := by
  rw [cut, divCeil, List.length_append, List.length_replicate]
  split <;> rfl

theorem sum_cut : (cut partSize total).sum = total := by
  have hdivision := Nat.div_add_mod total partSize
  rw [cut, List.sum_append, List.sum_replicate, smul_eq_mul, mul_comm]
  split
  next hzero => rw [List.sum_nil]; omega
  next => rw [List.sum_singleton]; exact hdivision

theorem le_of_mem_cut (hpos : 0 < partSize) {part : Nat}
    (hpart : part ∈ cut partSize total) : part ≤ partSize := by
  rw [cut, List.mem_append] at hpart
  rcases hpart with hwhole | hrest
  · exact (List.eq_of_mem_replicate hwhole).le
  · split at hrest
    · cases hrest
    · rw [List.mem_singleton.mp hrest]
      exact (Nat.mod_lt total hpos).le

/-- Only the last part can be a smaller one. -/
theorem eq_of_mem_dropLast_cut {part : Nat}
    (hpart : part ∈ (cut partSize total).dropLast) : part = partSize := by
  rw [cut] at hpart
  split at hpart
  · rw [List.append_nil] at hpart
    exact List.eq_of_mem_replicate (List.mem_of_mem_dropLast hpart)
  · rw [List.dropLast_concat] at hpart
    exact List.eq_of_mem_replicate hpart

theorem divCeil_le_iff {n d k : Nat} (hd : 0 < d) :
    divCeil n d ≤ k ↔ n ≤ d * k := by
  have hdivision := Nat.div_add_mod n d
  have hrest := Nat.mod_lt n hd
  rw [divCeil]
  split
  next hzero =>
    rw [Nat.add_zero, ← Nat.mul_le_mul_left_iff hd]
    omega
  next hrem =>
    constructor
    · intro hle
      have hmul := Nat.mul_le_mul_left d hle
      rw [Nat.mul_add, Nat.mul_one] at hmul
      omega
    · intro hle
      have hlt : d * (n / d) < d * k := by omega
      exact Nat.lt_of_mul_lt_mul_left hlt

/-- Parts of a size that S3 takes fit if they are not too many. -/
theorem fits_cut_iff (hleast : MIN_PART ≤ partSize) (hmost : partSize ≤ MAX_PART) :
    Fits (cut partSize total) ↔ total ≤ partSize * MAX_PARTS := by
  have hpos : 0 < partSize := Nat.lt_of_lt_of_le (by decide) hleast
  rw [← divCeil_le_iff hpos, ← length_cut]
  constructor
  · exact Fits.count
  · intro hcount
    exact ⟨hcount, fun part hpart => (eq_of_mem_dropLast_cut hpart).symm ▸ hleast,
      fun part hpart => (le_of_mem_cut hpos hpart).trans hmost⟩

end Parts

section Hints

variable {len : Nat}

/-- No length up to the greatest object is cut off in the computation. -/
theorem computePartSize_some (hlen : len ≤ MAX_OBJECT) :
    computePartSize (some len) =
      max (divCeil len TARGET_MAX_PARTS) DEFAULT_PART_SIZE := by
  have hsmall : divCeil len TARGET_MAX_PARTS ≤ USIZE_MAX := by
    rw [divCeil_le_iff (by decide)]
    exact hlen.trans (by decide)
  rw [computePartSize, saturate, if_pos hsmall]
  by_cases hzero : len = 0
  · rw [if_pos hzero, hzero]
    rfl
  · rw [if_neg hzero]

/-- With its length as a hint, every object is uploaded in parts that fit. -/
theorem fits_of_hint (hlen : len ≤ MAX_OBJECT) :
    Fits (cut (computePartSize (some len)) len) := by
  rw [computePartSize_some hlen]
  have hceil : divCeil len TARGET_MAX_PARTS ≤ MAX_PART := by
    rw [divCeil_le_iff (by decide)]
    exact hlen.trans (by decide)
  refine (fits_cut_iff ?_ ?_).mpr ?_
  · exact (by decide : MIN_PART ≤ DEFAULT_PART_SIZE).trans (le_max_right _ _)
  · exact max_le hceil (by decide)
  · have hparts : len ≤ TARGET_MAX_PARTS * divCeil len TARGET_MAX_PARTS :=
      (divCeil_le_iff (by decide)).mp le_rfl
    calc len ≤ TARGET_MAX_PARTS * divCeil len TARGET_MAX_PARTS := hparts
      _ ≤ MAX_PARTS * max (divCeil len TARGET_MAX_PARTS) DEFAULT_PART_SIZE :=
          Nat.mul_le_mul (by decide) (le_max_left _ _)
      _ = _ := Nat.mul_comm _ _

end Hints

/-- The data of a backup fits into one upload, at each place that makes one, and
no length is cut off in the computation of a part. -/
structure DataFits (data : List Nat) : Prop where
  dump : Fits (storeDumpStream data).2
  replica : ∀ manifest sidecar,
    ∀ upload ∈ replicateArtifact ⟨some data, manifest, sidecar⟩,
      upload.1 = DATA_FILE → Fits upload.2
  exact : ∀ len ≤ MAX_OBJECT, computePartSize (some len) =
    max (divCeil len TARGET_MAX_PARTS) DEFAULT_PART_SIZE

/-- The uploads are made without a hint, and so the parts keep their default
size. -/
theorem dataFits_iff (data : List Nat) :
    DataFits data ↔ data.sum ≤ MAX_PARTS * DEFAULT_PART_SIZE := by
  have hput : Fits (putStream data none) ↔
      data.sum ≤ MAX_PARTS * DEFAULT_PART_SIZE := by
    rw [Nat.mul_comm]
    exact fits_cut_iff (by decide : MIN_PART ≤ DEFAULT_PART_SIZE)
      (by decide : DEFAULT_PART_SIZE ≤ MAX_PART)
  constructor
  · exact fun hfits => hput.mp hfits.dump
  · intro hsmall
    refine ⟨hput.mpr hsmall, fun manifest sidecar upload hupload hname => ?_,
      fun len hlen => computePartSize_some hlen⟩
    rw [replicateArtifact, Option.map_some, Option.toList_some,
      List.singleton_append, List.mem_cons, List.mem_cons,
      List.mem_singleton] at hupload
    rcases hupload with rfl | rfl | rfl
    · exact hput.mpr hsmall
    · exact absurd hname (by decide : MANIFEST_FILE ≠ DATA_FILE)
    · exact absurd hname (by decide : MANIFEST_SHA_FILE ≠ DATA_FILE)

/-- A dump of one terabyte in chunks of eight megabytes. -/
def terabyte : List Nat :=
  List.replicate 131072 (8 * 1024 ^ 2)

theorem sum_terabyte : terabyte.sum = 1024 ^ 4 := by
  rw [terabyte, List.sum_replicate]
  rfl

theorem terabyte_tooManyParts :
    terabyte.sum ≤ MAX_OBJECT ∧ ¬ DataFits terabyte := by
  refine ⟨by rw [sum_terabyte]; decide, fun hfits => ?_⟩
  have hcount := hfits.dump.count
  rw [storeDumpStream, putStream, sum_terabyte, length_cut] at hcount
  exact absurd hcount (by decide)

end S3

end XBackup
