import Zipship.Proofs.Digest.Conformance
import Zipship.Tree.Layout

/-!
# Digests of files, however they are read

A file is read into a buffer of `readSize` bytes until a reading delivers nothing. How much one
reading delivers is up to the system: any number of bytes that fits, but not none as long as there
are any (`Delivers`). `hashFile` takes full buffers, which is one way among many; `Step` is one
reading, whatever it delivers, with what is done with it, and `Run` is a sequence of them.

* What a run has come to is determined by the bytes that were delivered, not by the readings that
  delivered them (`Reached`); a step keeps that (`Step.reached`), so a run does (`Run.reached`).
* A run that is not done can go on (`exists_step`), and no run has more readings than there are
  bytes, and one that delivers nothing (`Run.length_le`): reading ends.
* Each way to cut the content into pieces that fit the buffer is a run that is done with
  `hashPieces` of them (`Cuts.run`), and the runs that are done are no others (`Run.cuts`).

Together: **`hashFile_of_readings`**.
-/

namespace Zipship.Digest

/-! ## Readings -/

/-- What a reading may deliver of the bytes that are left. -/
structure Delivers (left piece rest : Bytes) : Prop where
  left_eq : left = piece ++ rest
  fits : piece.length ≤ readSize
  at_end : piece = [] → left = []

/-- Where the digest of a file stands. -/
inductive Stage where
  /-- The hasher has taken in what was delivered, and `left` is left. -/
  | reading (h : Hasher) (left : Bytes)
  /-- A reading has delivered nothing. -/
  | done (digest : String)

/-- A reading that delivers a piece, and what is done with it. -/
inductive Step : Stage → Bytes → Stage → Prop
  | update {h : Hasher} {left piece rest : Bytes} (hd : Delivers left piece rest)
      (hne : piece ≠ []) : Step (.reading h left) piece (.reading (h.update piece) rest)
  | finish {h : Hasher} {left rest : Bytes} (hd : Delivers left [] rest) :
      Step (.reading h left) [] (.done (hex h.digest))

/-- Readings one after another, with the pieces that they deliver. -/
inductive Run : Stage → List Bytes → Stage → Prop
  | refl (s : Stage) : Run s [] s
  | step {s s' s'' : Stage} {piece : Bytes} {reads : List Bytes} (hs : Step s piece s')
      (hr : Run s' reads s'') : Run s (piece :: reads) s''

/-- Before the first reading. -/
def Stage.start (content : Bytes) : Stage := .reading .initial content

variable {s s' : Stage} {h : Hasher} {content left rest piece : Bytes} {digest : String}
  {reads reads' pieces : List Bytes}

/-! ## What a run comes to -/

/-- What holds where these readings have led: the bytes that were delivered say it all. -/
def Reached (content : Bytes) (reads : List Bytes) : Stage → Prop
  | .reading h left => reads.flatten ++ left = content ∧ h = .after reads.flatten
  | .done digest => reads.flatten = content ∧ digest = hex (sha256 content)

theorem reached_start (content : Bytes) : Reached content [] (.start content) := ⟨rfl, rfl⟩

theorem Step.reached (hs : Step s piece s') (hreached : Reached content reads s) :
    Reached content (reads ++ [piece]) s' := by
  cases hs with
  | update hd hne =>
    obtain ⟨hcontent, rfl⟩ := hreached
    rw [hd.left_eq, ← List.append_assoc] at hcontent
    rw [Reached, List.flatten_append, List.flatten_singleton, update_after]
    exact ⟨hcontent, rfl⟩
  | finish hd =>
    obtain ⟨hcontent, rfl⟩ := hreached
    rw [hd.at_end rfl, List.append_nil] at hcontent
    rw [Reached, List.flatten_append, List.flatten_singleton, List.append_nil, digest_after,
      hcontent]
    exact ⟨rfl, rfl⟩

theorem Run.reached (hr : Run s reads' s') (hreached : Reached content reads s) :
    Reached content (reads ++ reads') s' := by
  induction hr generalizing reads with
  | refl s =>
    rw [List.append_nil]
    exact hreached
  | step hs hr ih =>
    have hnext := ih (hs.reached hreached)
    rw [List.append_assoc, List.singleton_append] at hnext
    exact hnext

/-! ## Reading ends -/

/-- A reading that is due can be made: it may fill the buffer, for one. -/
theorem exists_step (h : Hasher) (left : Bytes) :
    ∃ piece s', Step (.reading h left) piece s' := by
  cases left with
  | nil => exact ⟨[], _, .finish ⟨rfl, Nat.zero_le _, fun _ => rfl⟩⟩
  | cons x left =>
    have hne : (x :: left).take readSize ≠ [] := List.cons_ne_nil _ _
    have hd : Delivers (x :: left) ((x :: left).take readSize) ((x :: left).drop readSize) :=
      ⟨(List.take_append_drop _ _).symm, List.length_take_le _ _, fun hnil => absurd hnil hne⟩
    exact ⟨_, _, .update hd hne⟩

/-- How many readings there are to come at most. -/
def Stage.remaining : Stage → Nat
  | .reading _ left => left.length + 1
  | .done _ => 0

theorem Step.remaining_lt (hs : Step s piece s') : s'.remaining < s.remaining := by
  cases hs with
  | update hd hne =>
    have hpos := List.length_pos_of_ne_nil hne
    have hlen := congrArg List.length hd.left_eq
    rw [List.length_append] at hlen
    simp only [Stage.remaining]
    omega
  | finish hd => exact Nat.succ_pos _

theorem Run.length_le (hr : Run s reads s') : reads.length + s'.remaining ≤ s.remaining := by
  induction hr with
  | refl s => exact (Nat.zero_add _).le
  | step hs hr ih =>
    have hlt := hs.remaining_lt
    rw [List.length_cons]
    omega

/-! ## Ways to cut a content -/

/-- Pieces of a content as readings may deliver them, one after another. -/
structure Cuts (content : Bytes) (pieces : List Bytes) : Prop where
  flatten_eq : pieces.flatten = content
  ne_nil : ∀ piece ∈ pieces, piece ≠ []
  fits : ∀ piece ∈ pieces, piece.length ≤ readSize

theorem Cuts.cons (hc : Cuts rest pieces) (hne : piece ≠ []) (hfits : piece.length ≤ readSize) :
    Cuts (piece ++ rest) (piece :: pieces) where
  flatten_eq := by rw [List.flatten_cons, hc.flatten_eq]
  ne_nil := List.forall_mem_cons.mpr ⟨hne, hc.ne_nil⟩
  fits := List.forall_mem_cons.mpr ⟨hfits, hc.fits⟩

/-- Whichever pieces are delivered, the reading behind the last one finishes. -/
theorem Cuts.run (hc : Cuts left pieces) :
    Run (.reading h left) (pieces ++ [[]]) (.done (hex (pieces.foldl Hasher.update h).digest)) := by
  induction pieces generalizing h left with
  | nil =>
    obtain rfl : [] = left := hc.flatten_eq
    exact .step (.finish ⟨rfl, Nat.zero_le _, fun _ => rfl⟩) (.refl _)
  | cons piece pieces ih =>
    obtain ⟨hne, hnes⟩ := List.forall_mem_cons.mp hc.ne_nil
    obtain ⟨hfits, hall⟩ := List.forall_mem_cons.mp hc.fits
    refine .step (.update ⟨hc.flatten_eq.symm, hfits, fun hnil => absurd hnil hne⟩ hne) ?_
    exact ih ⟨rfl, hnes, hall⟩

/-- A run that is done has been delivered the content in pieces, and then nothing. -/
theorem Run.cuts (hr : Run (.reading h left) reads (.done digest)) :
    ∃ pieces, reads = pieces ++ [[]] ∧ Cuts left pieces := by
  induction reads generalizing h left with
  | nil => cases hr
  | cons piece reads ih =>
    cases hr with
    | step hs hr =>
      cases hs with
      | update hd hne =>
        obtain ⟨pieces, rfl, hc⟩ := ih hr
        exact ⟨piece :: pieces, rfl, hd.left_eq ▸ hc.cons hne hd.fits⟩
      | finish hd =>
        cases hr with
        | refl => exact ⟨[], rfl, (hd.at_end rfl).symm, by simp, by simp⟩
        | step hs hr => cases hs

/-! ## The digest of a file -/

/-- **The digest of a file is that of its content, however it is read.** It is SHA-256 in sixty-four
lower-case digits. The ways to cut the content into pieces that fit the buffer are the runs that are
done with it; and every run of readings is done with it or can go on, but not for more readings
than there are bytes, and one more. -/
theorem hashFile_of_readings {t : Tree} {cwd : Loc} {p : Path}
    (hread : t.read cwd p = .ok content) :
    hashFile t cwd p = .ok (Standard.text content) ∧
    (Standard.text content).length = 64 ∧
    (∀ c ∈ (Standard.text content).toList, c ∈ "0123456789abcdef".toList) ∧
    (∀ pieces, Cuts content pieces → hashPieces pieces = Standard.text content) ∧
    (∀ reads, Run (.start content) reads (.done (Standard.text content)) ↔
      ∃ pieces, reads = pieces ++ [[]] ∧ Cuts content pieces) ∧
    ∀ reads s, Run (.start content) reads s → reads.length ≤ content.length + 1 ∧
      (s = .done (Standard.text content) ∨ ∃ piece s', Step s piece s') := by
  have hcuts (pieces : List Bytes) (hc : Cuts content pieces) :
      hashPieces pieces = Standard.text content := by
    rw [hashPieces_eq, hc.flatten_eq, hex_sha256]
  refine ⟨?_, length_text content, fun c hc => mem_text hc, hcuts, fun reads => ⟨Run.cuts, ?_⟩,
    fun reads s hr => ⟨?_, ?_⟩⟩
  · rw [hashFile_of_read hread, hex_sha256]
  · rintro ⟨pieces, rfl, hc⟩
    rw [← hcuts pieces hc]
    exact hc.run
  · exact (Nat.le_add_right _ _).trans hr.length_le
  · have hreached := hr.reached (reached_start content)
    cases s with
    | reading h left => exact .inr (exists_step h left)
    | done digest =>
      rw [hreached.2, hex_sha256]
      exact .inl rfl

/-- A message of 56 bytes: the padding does not fit behind it in its block. -/
def alphabet : String := "abcdbcdecdefdefgefghfghighijhijkijkljklmklmnlmnomnopnopq"

/-- A file that holds it. -/
def lettered : Tree :=
  Tree.placeAll [] [.file ⟨"/p/letters"⟩ (Bytes.ofString alphabet) 0o644] Tree.empty

set_option maxRecDepth 100000 in
theorem hashFile_of_readings_lettered :
    lettered.read [] ⟨"/p/letters"⟩ = .ok (Bytes.ofString alphabet) ∧
    hashFile lettered [] ⟨"/p/letters"⟩ =
      .ok "248d6a61d20638b8e5c026930c3e6039a33ce45964ff2167f6ecedd419db06c1" ∧
    Run (.start (Bytes.ofString alphabet))
      [(Bytes.ofString alphabet).take 1, (Bytes.ofString alphabet).drop 1, []]
      (.done "248d6a61d20638b8e5c026930c3e6039a33ce45964ff2167f6ecedd419db06c1") := by
  have hread : lettered.read [] ⟨"/p/letters"⟩ = .ok (Bytes.ofString alphabet) := by
    decide +kernel
  have hdigest : hashFile lettered [] ⟨"/p/letters"⟩ =
      .ok "248d6a61d20638b8e5c026930c3e6039a33ce45964ff2167f6ecedd419db06c1" := by
    decide +kernel
  obtain ⟨hfile, -, -, -, hruns, -⟩ := hashFile_of_readings hread
  have hcuts : Cuts (Bytes.ofString alphabet)
      [(Bytes.ofString alphabet).take 1, (Bytes.ofString alphabet).drop 1] :=
    ⟨by decide +kernel, by decide +kernel, by decide +kernel⟩
  have htext := Except.ok.inj (hfile.symm.trans hdigest)
  rw [htext] at hruns
  exact ⟨hread, hdigest, (hruns _).mpr ⟨_, rfl, hcuts⟩⟩

end Zipship.Digest
