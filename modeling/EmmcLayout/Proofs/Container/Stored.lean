import EmmcLayout.Proofs.Container.Bundle
import EmmcLayout.Proofs.Container.Image
import EmmcLayout.Proofs.DeviceTree.Blob
import EmmcLayout.Proofs.Gzip.Member

/-!
# Images survive being stored

An image is written the way it was wrapped, and the place it is written to is longer than it is.
What is read from there is the image again, whatever the rest of that place holds.

An image that was loaded has a sound body (`ImageBody.Sound`): its tree opens again, or the entries
of its bundle are legible and as many as its trees.  Replacing partitions keeps that
(`sound_replacePartitions`), also where it fails.  A sound body is written (`exists_bodyBytes`)
and unwrapped again (`loadBody_bodyBytes`), and with a codec that keeps its content
(`Codec.Keeps`) so is the whole image: `toBytes_loads_back`.
-/

namespace EmmcLayout

open BundleEntry

/-! ## Kinds -/

namespace ContainerKind

variable {b : Bytes} {leading : Bytes}

theorem ofBytes_of_plain (h : Bytes.fetch b 0 4 = .ok plainMagic) : ofBytes b = .ok .plain := by
  rw [ofBytes, h]
  rfl

theorem ofBytes_of_bundle (h : Bytes.fetch b 0 4 = .ok bundleMagic) : ofBytes b = .ok .bundle := by
  rw [ofBytes, h]
  rfl

/-- Whatever starts like a member of gzip counts as compressed. -/
theorem ofBytes_of_gzip (hmagic : Gzip.magic <+: b) (hlen : 4 ≤ b.length) :
    ofBytes b = .ok .compressed := by
  obtain ⟨rest, rfl⟩ := hmagic
  obtain ⟨part, back, rfl, hpart⟩ := Bytes.exists_split (n := 2) (b := rest)
    (by simpa [Gzip.magic] using hlen)
  have hfetch : Bytes.fetch (Gzip.magic ++ (part ++ back)) 0 4 = .ok (Gzip.magic ++ part) := by
    have hmiddle := Bytes.fetch_middle [] (Gzip.magic ++ part) back
    rw [List.length_append, hpart, List.append_assoc] at hmiddle
    exact hmiddle
  have hplain : Gzip.magic ++ part ≠ plainMagic := by
    intro h
    exact absurd (List.cons.inj h).1 (by decide)
  have hbundle : Gzip.magic ++ part ≠ bundleMagic := by
    intro h
    exact absurd (List.cons.inj h).1 (by decide)
  have hgzip : Gzip.isGzip (Gzip.magic ++ part) = true :=
    List.isPrefixOf_iff_prefix.mpr (List.prefix_append _ _)
  rw [ofBytes, hfetch, Outcome.ok_bind, if_neg hplain, if_neg hbundle, if_pos hgzip]
  rfl

end ContainerKind

/-! ## Trees -/

namespace DeviceTree

/-- The leading bytes of a tree say that it is one. -/
theorem kind_of_ofBytes {b : Bytes} {t : DeviceTree} (h : DeviceTree.ofBytes b = .ok t) :
    ContainerKind.ofBytes b = .ok .plain := by
  obtain ⟨ht, rest, rfl⟩ := ofBytes_eq_ok_iff.mp h
  obtain ⟨hmagic, -⟩ := Header.fetch_of_ofBytes ht.header_eq
  rw [ht.magic_eq] at hmagic
  exact ContainerKind.ofBytes_of_plain (Bytes.fetch_append hmagic rest)

/-- The tree opens to itself, unless it is longer than a header can say. -/
def Opens (b : Bytes) : Prop :=
  b.length < UInt32.size → ∃ t, DeviceTree.ofBytes b = .ok t ∧ t.bytes = b

theorem opens_of_ofBytes {b : Bytes} {t : DeviceTree} (h : DeviceTree.ofBytes b = .ok t) :
    Opens t.bytes := by
  intro _
  obtain ⟨ht, -⟩ := ofBytes_eq_ok_iff.mp h
  exact ⟨t, ofBytes_eq_ok_iff.mpr ⟨ht, List.prefix_refl _⟩, rfl⟩

/-- A tree with its partitions replaced opens. -/
theorem opens_of_replacePartitions {b : Bytes} {records : List Record} {replaced : Replaced}
    (h : (replacePartitions b records).result = .ok replaced) : Opens replaced.bytes := by
  obtain ⟨w, -, rfl⟩ := replacePartitions_eq_ok_iff.mp h
  intro hlen
  have hopen := ofBytes_assemble hlen []
  rw [List.append_nil] at hopen
  exact ⟨_, hopen, rfl⟩

end DeviceTree

/-! ## Bodies -/

namespace ImageBody

/-- The body can be written, and read once it is. -/
inductive Sound : ImageBody → Prop
  | plain {tree : Bytes} (hopens : DeviceTree.Opens tree) : Sound (.plain tree)
  | bundle {width : Nat} {bundle : Bundle} {trees : List Bytes} (hlegible : bundle.Legible width)
      (hcount : trees.length = bundle.entries.length) : Sound (.bundle bundle trees)

/-- The second body holds what the first one does: the same trees, in a bundle for the same boards,
wherever the trees lie in it. -/
inductive Matches : ImageBody → ImageBody → Prop
  | plain (tree : Bytes) : Matches (.plain tree) (.plain tree)
  | bundle {a b : Bundle} (trees : List Bytes) (hversion : b.version = a.version)
      (hboards : List.Forall₂ SameBoard a.entries b.entries) :
      Matches (.bundle a trees) (.bundle b trees)

/-- Unwraps what is not compressed. -/
theorem loadBody_eq_ok_iff {b : Bytes} {body : ImageBody} :
    (Image.loadBody b).result = .ok body ↔
      (∃ bundle trees, (Bundle.ofBytes b).result = .ok bundle ∧
        Image.treesOf bundle b = .ok trees ∧ body = .bundle bundle trees) ∨
      ∃ tree, DeviceTree.ofBytes b = .ok tree ∧ body = .plain tree.bytes := by
  unfold Image.loadBody
  simp only [Outcome.result_bind_eq_ok_iff, Outcome.result_lift]
  constructor
  · rintro ⟨kind, hkind, h⟩
    by_cases hbundle : kind = .bundle
    · rw [if_pos hbundle] at h
      simp only [Outcome.result_bind_eq_ok_iff, Outcome.result_lift] at h
      obtain ⟨bundle, hread, trees, htrees, h⟩ := h
      exact .inl ⟨bundle, trees, hread, htrees, (Except.ok.inj h).symm⟩
    · rw [if_neg hbundle] at h
      simp only [Outcome.result_bind_eq_ok_iff, Outcome.result_lift] at h
      obtain ⟨tree, htree, h⟩ := h
      exact .inr ⟨tree, htree, (Except.ok.inj h).symm⟩
  · rintro (⟨bundle, trees, hread, htrees, rfl⟩ | ⟨tree, htree, rfl⟩)
    · refine ⟨.bundle, ContainerKind.ofBytes_of_bundle (Bundle.ofBytes_eq_ok_iff.mp hread).1, ?_⟩
      rw [if_pos rfl]
      simp only [Outcome.result_bind_eq_ok_iff, Outcome.result_lift]
      exact ⟨bundle, hread, trees, htrees, rfl⟩
    · refine ⟨.plain, DeviceTree.kind_of_ofBytes htree, ?_⟩
      rw [if_neg (by simp)]
      simp only [Outcome.result_bind_eq_ok_iff, Outcome.result_lift]
      exact ⟨tree, htree, rfl⟩

/-- What is unwrapped without a codec is not compressed. -/
theorem kind_of_loadBody {b : Bytes} {body : ImageBody}
    (h : (Image.loadBody b).result = .ok body) :
    ∃ kind, ContainerKind.ofBytes b = .ok kind ∧ kind ≠ .compressed := by
  obtain ⟨bundle, trees, hread, -, -⟩ | ⟨tree, htree, -⟩ := loadBody_eq_ok_iff.mp h
  · exact ⟨_, ContainerKind.ofBytes_of_bundle (Bundle.ofBytes_eq_ok_iff.mp hread).1, by simp⟩
  · exact ⟨_, DeviceTree.kind_of_ofBytes htree, by simp⟩

theorem sound_of_loadBody {b : Bytes} {body : ImageBody}
    (h : (Image.loadBody b).result = .ok body) : body.Sound := by
  obtain ⟨bundle, trees, hread, htrees, rfl⟩ | ⟨tree, htree, rfl⟩ := loadBody_eq_ok_iff.mp h
  · obtain ⟨width, hlegible⟩ := Bundle.legible_of_ofBytes hread
    exact .bundle hlegible (Bundle.treesOf_eq_ok_iff.mp htrees).length_eq.symm
  · exact .plain (DeviceTree.opens_of_ofBytes htree)

end ImageBody

namespace Image

variable {image : Image} {codec : Codec} {b : Bytes}

/-! ## Images -/

/-- When an image is loaded. -/
theorem load_eq_ok_iff :
    (load codec b).result = .ok image ↔
      (image.compressed = false ∧ (loadBody b).result = .ok image.body) ∨
      (image.compressed = true ∧ ContainerKind.ofBytes b = .ok .compressed ∧
        ∃ content, codec.decompress b maxInflatedLength = .ok content ∧
          (loadBody content).result = .ok image.body) := by
  obtain ⟨compressed, body⟩ := image
  unfold load
  simp only [Outcome.result_bind_eq_ok_iff, Outcome.result_lift]
  constructor
  · rintro ⟨kind, hkind, h⟩
    by_cases hgzip : kind = .compressed
    · rw [if_pos hgzip] at h
      simp only [Outcome.result_bind_eq_ok_iff, Outcome.result_lift, Outcome.throw_bind,
        Outcome.result_throw_guard_eq_ok_iff] at h
      obtain ⟨content, hcontent, inner, -, -, body', hbody, h⟩ := h
      obtain ⟨rfl, rfl⟩ := Image.mk.inj (Except.ok.inj h)
      exact .inr ⟨rfl, hgzip ▸ hkind, content, hcontent, hbody⟩
    · rw [if_neg hgzip] at h
      simp only [Outcome.result_bind_eq_ok_iff] at h
      obtain ⟨body', hbody, h⟩ := h
      obtain ⟨rfl, rfl⟩ := Image.mk.inj (Except.ok.inj h)
      exact .inl ⟨rfl, hbody⟩
  · rintro (⟨rfl, hbody⟩ | ⟨rfl, hkind, content, hcontent, hbody⟩)
    · obtain ⟨kind, hkind, hne⟩ := ImageBody.kind_of_loadBody hbody
      refine ⟨kind, hkind, ?_⟩
      rw [if_neg hne]
      simp only [Outcome.result_bind_eq_ok_iff]
      exact ⟨body, hbody, rfl⟩
    · obtain ⟨inner, hinner, hne⟩ := ImageBody.kind_of_loadBody hbody
      refine ⟨_, hkind, ?_⟩
      rw [if_pos rfl]
      simp only [Outcome.result_bind_eq_ok_iff, Outcome.result_lift, Outcome.throw_bind,
        Outcome.result_throw_guard_eq_ok_iff]
      exact ⟨content, hcontent, inner, hinner, hne, body, hbody, rfl⟩

theorem sound_of_load (h : (load codec b).result = .ok image) : image.body.Sound := by
  obtain ⟨-, hbody⟩ | ⟨-, -, content, -, hbody⟩ := load_eq_ok_iff.mp h
  · exact ImageBody.sound_of_loadBody hbody
  · exact ImageBody.sound_of_loadBody hbody

theorem length_replaceEach (records : List Record) (trees : List Bytes) :
    (replaceEach records trees).1.length = trees.length := by
  induction trees with
  | nil => rfl
  | cons tree rest ih =>
      cases hresult : (DeviceTree.replacePartitions tree records).result with
      | error e =>
          obtain ⟨htrees, -⟩ := replaceEach_of_error rest hresult
          rw [htrees]
      | ok replaced =>
          obtain ⟨htrees, -⟩ := replaceEach_of_ok rest hresult
          rw [htrees, List.length_cons, ih, List.length_cons]

/-- Replacing partitions leaves a sound body, also where it fails. -/
theorem sound_replacePartitions (h : image.body.Sound) (records : List Record) :
    (image.replacePartitions records).1.body.Sound := by
  obtain ⟨compressed, body⟩ := image
  cases h with
  | @plain tree hopens =>
      cases hresult : (DeviceTree.replacePartitions tree records).result with
      | error e =>
          simp only [Image.replacePartitions, hresult]
          exact .plain hopens
      | ok replaced =>
          simp only [Image.replacePartitions, hresult]
          exact .plain (DeviceTree.opens_of_replacePartitions hresult)
  | bundle hlegible hcount =>
      exact .bundle hlegible ((length_replaceEach records _).trans hcount)

/-- An image is written from its body. -/
theorem exists_bodyBytes (h : image.body.Sound) : ∃ body, image.bodyBytes = .ok body := by
  obtain ⟨compressed, body⟩ := image
  cases h with
  | plain hopens => exact ⟨_, rfl⟩
  | bundle hlegible hcount => exact ⟨_, Bundle.rebuild_eq hlegible hcount⟩

/-- **What is written of a sound body is unwrapped to what it held**, whatever follows it. -/
theorem loadBody_bodyBytes (h : image.body.Sound) {body : Bytes}
    (hbody : image.bodyBytes = .ok body) (hlen : body.length < UInt32.size) (junk : Bytes) :
    ∃ again, (loadBody (body ++ junk)).result = .ok again ∧ image.body.Matches again := by
  obtain ⟨compressed, old⟩ := image
  cases h with
  | plain hopens =>
      obtain rfl := Except.ok.inj hbody
      obtain ⟨t, hopen, rfl⟩ := hopens hlen
      obtain ⟨ht, -⟩ := DeviceTree.ofBytes_eq_ok_iff.mp hopen
      have hread := DeviceTree.ofBytes_eq_ok_iff.mpr ⟨ht, List.prefix_append _ junk⟩
      exact ⟨_, ImageBody.loadBody_eq_ok_iff.mpr (.inr ⟨t, hread, rfl⟩), .plain _⟩
  | bundle hlegible hcount =>
      obtain rfl := Except.ok.inj ((Bundle.rebuild_eq hlegible hcount).symm.trans hbody)
      obtain ⟨hread, htrees⟩ := Bundle.ofBytes_rebuilt hlegible hcount hlen junk
      exact ⟨_, ImageBody.loadBody_eq_ok_iff.mpr (.inl ⟨_, _, hread, htrees, rfl⟩),
        .bundle _ rfl (Bundle.sameBoard_placed _ hcount)⟩

end Image

/-! ## Codecs -/

/-- What is relied on of a codec for one content: it makes a member of gzip of it, and gives the
content back, whatever follows the member. -/
structure Codec.Keeps (codec : Codec) (content packed : Bytes) : Prop where
  compress_eq : codec.compress content = .ok packed
  starts : Gzip.magic <+: packed
  /-- A kind is told by four bytes; the header of a member alone is longer. -/
  leading_le : 4 ≤ packed.length
  decompress_eq : ∀ junk limit, content.length ≤ limit →
    codec.decompress (packed ++ junk) limit = .ok content

theorem Codec.gzip_keeps (content : Bytes) : Codec.gzip.Keeps content (Gzip.compress content) where
  compress_eq := rfl
  starts := by
    simp only [Gzip.compress, List.append_assoc]
    exact List.prefix_append _ _
  leading_le := by
    simp only [Gzip.compress, Gzip.magic, List.length_append, List.length_cons]
    omega
  decompress_eq := fun junk _ hlimit => Gzip.decompress_compress hlimit junk

namespace Image

variable {image : Image} {codec : Codec}

/-! ## Storing -/

/-- What a codec keeps is unwrapped as it was before, whatever follows it. -/
theorem load_of_keeps {content packed : Bytes} {body : ImageBody}
    (hpacked : codec.Keeps content packed) (hlimit : content.length ≤ maxInflatedLength)
    (hbody : (loadBody content).result = .ok body) (junk : Bytes) :
    (load codec (packed ++ junk)).result = .ok ⟨true, body⟩ := by
  have hkind : ContainerKind.ofBytes (packed ++ junk) = .ok .compressed :=
    ContainerKind.ofBytes_of_gzip (hpacked.starts.trans (List.prefix_append _ _))
      (Nat.le_trans hpacked.leading_le (by simp))
  exact load_eq_ok_iff.mpr
    (.inr ⟨rfl, hkind, content, hpacked.decompress_eq junk _ hlimit, hbody⟩)

/-- An image that was loaded, and whose partitions were replaced any number of times since, whether
that succeeded or not. -/
inductive Reached : Image → Prop
  | loaded {codec : Codec} {b : Bytes} {image : Image} (h : (load codec b).result = .ok image) :
      Reached image
  | replaced {image : Image} (himage : Reached image) (records : List Record) :
      Reached (image.replacePartitions records).1

theorem Reached.sound (h : Reached image) : image.body.Sound := by
  induction h with
  | loaded hload => exact sound_of_load hload
  | replaced _ records ih => exact sound_replacePartitions ih records

/-- The second image is the first one again. -/
structure Matches (a b : Image) : Prop where
  compressed_eq : b.compressed = a.compressed
  kind_eq : b.kind = a.kind
  trees_eq : b.trees = a.trees
  body : a.body.Matches b.body

theorem matches_of_body {body : ImageBody} (h : image.body.Matches body) :
    image.Matches ⟨image.compressed, body⟩ := by
  obtain ⟨compressed, old⟩ := image
  cases h with
  | plain tree => exact ⟨rfl, rfl, rfl, .plain tree⟩
  | bundle trees hversion hboards =>
      refine ⟨rfl, ?_, rfl, .bundle trees hversion hboards⟩
      cases compressed <;> rfl

/-- **A stored image is loaded again.**  Whatever was replaced in an image since it was loaded, it
can be written, and what is written loads as the image again whatever follows it: compressed or not
as it was, with the same trees, and in a bundle for the same boards in the same order.  The body
must be short enough for its own header, and a codec must keep it. -/
theorem toBytes_loads_back (himage : Reached image) :
    ∃ body, image.bodyBytes = .ok body ∧ ∀ codec : Codec, body.length < UInt32.size →
      (image.compressed = true →
        body.length ≤ maxInflatedLength ∧ ∃ packed, codec.Keeps body packed) →
      ∃ stored, image.toBytes codec = .ok stored ∧ ∀ junk, ∃ again,
        (load codec (stored ++ junk)).result = .ok again ∧ image.Matches again := by
  have hsound := himage.sound
  obtain ⟨body, hbody⟩ := exists_bodyBytes hsound
  refine ⟨body, hbody, ?_⟩
  intro codec hlen hcodec
  cases hcompressed : image.compressed with
  | false =>
      refine ⟨body, ?_, ?_⟩
      · rw [toBytes, hbody, Outcome.ok_bind, hcompressed]
        rfl
      · intro junk
        obtain ⟨again, hagain, hmatches⟩ := loadBody_bodyBytes hsound hbody hlen junk
        refine ⟨⟨false, again⟩, load_eq_ok_iff.mpr (.inl ⟨rfl, hagain⟩), ?_⟩
        rw [← hcompressed]
        exact matches_of_body hmatches
  | true =>
      obtain ⟨hlimit, packed, hpacked⟩ := hcodec hcompressed
      refine ⟨packed, ?_, ?_⟩
      · rw [toBytes, hbody, Outcome.ok_bind, hcompressed, if_pos rfl, hpacked.compress_eq]
      · intro junk
        -- the codec leaves out what follows, so the body is unwrapped with nothing behind it
        obtain ⟨again, hagain, hmatches⟩ := loadBody_bodyBytes hsound hbody hlen []
        rw [List.append_nil] at hagain
        refine ⟨⟨true, again⟩, load_of_keeps hpacked hlimit hagain junk, ?_⟩
        rw [← hcompressed]
        exact matches_of_body hmatches

/-- A bundle of two trees, for the boards `g12a_u200_2g` and `g12a_u200_4g`. -/
def twinBundle : Bytes :=
  let entry (rawId : String) : BundleEntry :=
    { soc := "", platform := "", variant := "", rawId := Utf8.encode rawId, offset := 0, size := 0 }
  ((Bundle.mk 1 [entry "a21g002u  g2", entry "a21g002u  g4"]).rebuild
    [DeviceTree.smallTree, DeviceTree.smallTree]).toOption.getD []

/-- The bundle is kept compressed, and the partitions of its trees are replaced. -/
theorem toBytes_loads_back_of_twinBundle :
    ∃ image assigned stored again,
      (load .gzip (Gzip.compress twinBundle)).result = .ok image ∧
      (image.replacePartitions [⟨"system", 0x2000, 4, 0, 0⟩]).2.result = .ok assigned ∧
      (image.replacePartitions [⟨"system", 0x2000, 4, 0, 0⟩]).1.toBytes .gzip = .ok stored ∧
      (load .gzip (stored ++ Bytes.zeros 100)).result = .ok again ∧
      (image.replacePartitions [⟨"system", 0x2000, 4, 0, 0⟩]).1.Matches again := by
  obtain ⟨body, hbody, hafter⟩ := Outcome.exists_ok_of_any (x := (loadBody twinBundle).result)
    (p := fun body =>
      let after := (Image.mk true body).replacePartitions [⟨"system", 0x2000, 4, 0, 0⟩]
      after.2.result.isOk && after.1.bodyBytes.toOption.any (·.length ≤ maxInflatedLength))
    (by decide +kernel)
  obtain ⟨hok, hsize⟩ := Bool.and_eq_true_iff.mp hafter
  obtain ⟨assigned, hassigned⟩ := Outcome.exists_ok_of_isOk hok
  have hload := load_of_keeps (Codec.gzip_keeps twinBundle) (by decide +kernel) hbody []
  rw [List.append_nil] at hload
  obtain ⟨written, hwritten, hstore⟩ :=
    toBytes_loads_back ((Reached.loaded hload).replaced [⟨"system", 0x2000, 4, 0, 0⟩])
  rw [hwritten] at hsize
  have hlimit : written.length ≤ maxInflatedLength := of_decide_eq_true hsize
  have hlen : written.length < UInt32.size := Nat.lt_of_le_of_lt hlimit (by decide)
  obtain ⟨stored, hstored, hback⟩ :=
    hstore .gzip hlen fun _ => ⟨hlimit, _, Codec.gzip_keeps written⟩
  obtain ⟨again, hagain, hmatches⟩ := hback (Bytes.zeros 100)
  exact ⟨_, assigned, stored, again, hload, hassigned, hstored, hagain, hmatches⟩

end Image

end EmmcLayout
