import Mathlib.Data.List.TakeDrop
import Mathlib.Data.Nat.Bitwise
import YamlSieve.Source

/-!
# Documents of files and of bytes

A file tells by its name whether it is compressed, plain bytes by how they start. Where the two
agree, they give the same documents. Where they do not, the file is refused: what decompression
accepts starts like compressed data (`Gzip.hasMagic_of_decompress?`), and no text does
(`Gzip.hasMagic_of_fromUTF8?`).
-/

namespace YamlSieve

namespace Gzip

/-! ### Compressed data -/

namespace BitReader

variable {α β : Type} {data : ByteArray} {position : Nat}

lemma pure_eq (a : α) : (pure a : BitReader α) data position = some (a, position) := rfl

lemma failure_eq : (failure : BitReader α) data position = none := rfl

/-- A reader goes on where the one before it stopped. -/
lemma bind_eq_some {r : BitReader α} {f : α → BitReader β} {out : β × Nat} :
    (r >>= f) data position = some out ↔
      ∃ a next, r data position = some (a, next) ∧ f a data next = some out := by
  show (r data position).bind (fun p => f p.1 data p.2) = some out ↔ _
  rw [Option.bind_eq_some_iff]
  exact Prod.exists

lemma guard_eq_some {p : Prop} [Decidable p] {out : Unit × Nat} :
    (guard p : BitReader Unit) data position = some out ↔ p ∧ ((), position) = out := by
  by_cases hp : p
  · rw [guard, if_pos hp, pure_eq, Option.some.injEq, and_iff_right hp]
  · rw [guard, if_neg hp, failure_eq]
    constructor
    · intro h
      cases h
    · intro h
      exact absurd h.1 hp

lemma bit_of_byte {byte : UInt8} {i k : Nat} (hbyte : data[k]? = some byte) (hi : i < 8) :
    bit data (8 * k + i) = some (byte.toNat.testBit i, 8 * k + (i + 1)) := by
  have hdiv : (8 * k + i) / 8 = k := by omega
  have hmod : (8 * k + i) % 8 = i := by omega
  rw [bit, hdiv, hmod, hbyte]
  rfl

/-- The bits of one byte, the lowest one first. -/
lemma bits_of_byte {byte : UInt8} {i k n : Nat} (hbyte : data[k]? = some byte) (hn : i + n ≤ 8) :
    bits n data (8 * k + i) = some (byte.toNat / 2 ^ i % 2 ^ n, 8 * k + (i + n)) := by
  induction n generalizing i with
  | zero => rw [bits, pure_eq, Nat.pow_zero, Nat.mod_one, Nat.add_zero]
  | succ n ih =>
    refine bind_eq_some.mpr ⟨_, _, bit_of_byte hbyte (by omega), ?_⟩
    refine bind_eq_some.mpr ⟨_, _, ih (by omega), ?_⟩
    have hvalue : (byte.toNat.testBit i).toNat + 2 * (byte.toNat / 2 ^ (i + 1) % 2 ^ n) =
        byte.toNat / 2 ^ i % 2 ^ (n + 1) := by
      rw [Nat.toNat_testBit, Nat.pow_succ' (n := n), Nat.mod_mul, Nat.div_div_eq_div_mul,
        ← Nat.pow_succ]
    rw [hvalue, Nat.add_right_comm i 1 n]
    rfl

/-- A byte is read as it is, where there is one. -/
lemma bits_eight (k : Nat) :
    bits 8 data (8 * k) = (data[k]?).map fun byte => (byte.toNat, 8 * (k + 1)) := by
  cases hbyte : data[k]? with
  | some byte =>
    have hbits := bits_of_byte hbyte (i := 0) (n := 8) (by omega)
    rw [Nat.add_zero, Nat.pow_zero, Nat.div_one, Nat.mod_eq_of_lt byte.toNat_lt] at hbits
    exact hbits
  | none =>
    have hbit : bit data (8 * k) = none := by
      rw [bit, Nat.mul_div_cancel_left k (by omega), hbyte]
    show (bit data (8 * k)).bind _ = none
    rw [hbit]
    rfl

/-- A reader that checks a byte finds this byte, and goes on behind it. -/
lemma byte_of_guard {n k : Nat} {r : BitReader α} {out : α × Nat}
    (h : (do guard ((← bits 8) = n); r) data (8 * k) = some out) :
    ∃ byte, data[k]? = some byte ∧ byte.toNat = n ∧ r data (8 * (k + 1)) = some out := by
  obtain ⟨value, next, hbits, h⟩ := bind_eq_some.mp h
  rw [bits_eight] at hbits
  obtain ⟨byte, hbyte, hread⟩ := Option.map_eq_some_iff.mp hbits
  obtain ⟨rfl, rfl⟩ := Prod.mk.inj hread
  obtain ⟨⟨⟩, next, hguard, h⟩ := bind_eq_some.mp h
  obtain ⟨hvalue, hnext⟩ := guard_eq_some.mp hguard
  obtain ⟨-, rfl⟩ := Prod.mk.inj hnext
  exact ⟨byte, hbyte, hvalue, h⟩

end BitReader

theorem hasMagic_of_decompress? {data output : ByteArray} (h : decompress? data = some output) :
    hasMagic data = true := by
  obtain ⟨⟨_, _⟩, hmember, -⟩ := Option.map_eq_some_iff.mp h
  obtain ⟨_, _, hheader, -⟩ := BitReader.bind_eq_some.mp hmember
  obtain ⟨first, hfirst, hvalue, hheader⟩ := BitReader.byte_of_guard (k := 0) hheader
  obtain ⟨second, hsecond, hvalue', -⟩ := BitReader.byte_of_guard (k := 1) hheader
  obtain rfl : first = 0x1f := UInt8.toNat_inj.mp hvalue
  obtain rfl : second = 0x8b := UInt8.toNat_inj.mp hvalue'
  rw [hasMagic, hfirst, hsecond]
  rfl

/-! ### Texts -/

/-- The first byte of a character goes on with no other one. If more follow, it is no ASCII. -/
lemma utf8EncodeChar_eq_cons (c : Char) :
    ∃ byte bytes, String.utf8EncodeChar c = byte :: bytes ∧ byte.IsUTF8FirstByte ∧
      (bytes = [] ∨ 0xc0 ≤ byte.toNat) := by
  obtain ⟨byte, bytes, hbytes⟩ := List.exists_cons_of_ne_nil (String.utf8EncodeChar_ne_nil (c := c))
  have hfirst := UInt8.isUTF8FirstByte_getElem_zero_utf8EncodeChar (c := c)
  simp only [hbytes, List.getElem_cons_zero] at hfirst
  refine ⟨byte, bytes, hbytes, hfirst, ?_⟩
  rw [String.utf8EncodeChar] at hbytes
  split_ifs at hbytes
  · exact Or.inl (List.cons.inj hbytes).2.symm
  all_goals
    obtain ⟨rfl, -⟩ := List.cons.inj hbytes
    rw [UInt8.toNat_ofNat']
    omega

/-- The first byte of the mark is a character of its own, and the second one starts none. -/
lemma flatMap_utf8EncodeChar_ne (text : List Char) (rest : List UInt8) :
    text.flatMap String.utf8EncodeChar ≠ 0x1f :: 0x8b :: rest := by
  intro h
  cases text with
  | nil => cases h
  | cons c text =>
    obtain ⟨byte, bytes, hbytes, -, hmore⟩ := utf8EncodeChar_eq_cons c
    rw [List.flatMap_cons, hbytes, List.cons_append] at h
    obtain ⟨rfl, htail⟩ := List.cons.inj h
    obtain rfl := hmore.resolve_right (by decide)
    cases text with
    | nil => cases htail
    | cons d text =>
      obtain ⟨second, bytes, hbytes, hfirst, -⟩ := utf8EncodeChar_eq_cons d
      rw [List.nil_append, List.flatMap_cons, hbytes, List.cons_append] at htail
      obtain ⟨rfl, -⟩ := List.cons.inj htail
      exact absurd hfirst (by decide)

lemma exists_cons_of_hasMagic {bytes : List UInt8} (h : hasMagic bytes.toByteArray = true) :
    ∃ rest, bytes = 0x1f :: 0x8b :: rest := by
  have hget : ∀ i : Nat, bytes.toByteArray[i]? = bytes[i]? := by
    intro i
    rw [getElem?_def, getElem?_def]
    simp [List.getElem_toByteArray]
  rw [hasMagic, hget, hget, Bool.and_eq_true, decide_eq_true_iff, decide_eq_true_iff] at h
  obtain ⟨hfirst, hsecond⟩ := h
  match bytes with
  | [] => cases hfirst
  | [_] => cases hsecond
  | _ :: _ :: rest =>
    obtain rfl := Option.some.inj hfirst
    obtain rfl := Option.some.inj hsecond
    exact ⟨rest, rfl⟩

theorem hasMagic_of_fromUTF8? {data : ByteArray} {text : String}
    (h : String.fromUTF8? data = some text) : hasMagic data = false := by
  rw [String.fromUTF8?] at h
  split at h
  · next hvalid =>
    obtain ⟨cs, rfl⟩ := hvalid
    refine Bool.eq_false_iff.mpr fun hmagic => ?_
    obtain ⟨rest, hrest⟩ := exists_cons_of_hasMagic hmagic
    exact flatMap_utf8EncodeChar_ne cs rest hrest
  · cases h

end Gzip

namespace Source

/-! ### Names of files -/

/-- The extension follows the last dot of a name, and something stands in front of the dot. -/
lemma extension?_eq_some_iff {path suffix : String} (hsuffix : '.' ∉ suffix.toList) :
    extension? path = some suffix ↔
      ∃ stem, stem ≠ "" ∧ fileName? path = some (stem ++ "." ++ suffix) := by
  rw [extension?]
  cases fileName? path with
  | none => simp
  | some name =>
    simp only [Option.bind_eq_bind, Option.bind_some, Option.some.injEq]
    constructor
    · intro h
      have hparts := List.takeWhile_append_dropWhile (p := (· ≠ '.')) (l := name.toList.reverse)
      have hdot := List.head?_dropWhile_not (· ≠ '.') name.toList.reverse
      -- `front` is read backwards: the last dot, then the stem. With less than both, none is found.
      generalize name.toList.reverse.takeWhile (· ≠ '.') = last,
        name.toList.reverse.dropWhile (· ≠ '.') = front at h hparts hdot
      match front with
      | [] | [_] => cases h
      | c :: d :: cs =>
        obtain rfl : c = '.' := by simpa using hdot
        obtain rfl := Option.some.inj h
        refine ⟨String.ofList (d :: cs).reverse, by simp [← String.toList_inj], ?_⟩
        rw [← String.toList_inj, ← List.reverse_inj, ← hparts]
        simp [String.toList_append]
    · rintro ⟨stem, hstem, rfl⟩
      have hreverse : (stem ++ "." ++ suffix).toList.reverse =
          suffix.toList.reverse ++ '.' :: stem.toList.reverse := by
        simp [String.toList_append]
      have hplain : ∀ c ∈ suffix.toList.reverse, decide (c ≠ '.') = true := by
        intro c hc
        exact decide_eq_true fun hdot => hsuffix (hdot ▸ List.mem_reverse.mp hc)
      have hne : stem.toList.reverse ≠ [] := by
        rw [Ne, List.reverse_eq_nil_iff, String.toList_eq_nil_iff]
        exact hstem
      obtain ⟨c, cs, hcs⟩ := List.exists_cons_of_ne_nil hne
      rw [hreverse, List.dropWhile_append_of_pos hplain, List.takeWhile_append_of_pos hplain, hcs]
      simp

/-! ### Loading -/

variable {path : String} {data : ByteArray} {text : String} {documents : List Node}

lemma hasMagic_of_decompressText (h : decompressText data = .ok text) :
    Gzip.hasMagic data = true := by
  rw [decompressText] at h
  split at h
  · next htext =>
    obtain ⟨output, houtput, -⟩ := Option.bind_eq_some_iff.mp htext
    exact Gzip.hasMagic_of_decompress? houtput
  · cases h

/-- A file holds the text of its bytes if its name and the bytes agree on compression. -/
lemma fileText_eq_ok_iff : fileText path (some data) = .ok text ↔
    isCompressed path = Gzip.hasMagic data ∧ bytesText data = .ok text := by
  rw [fileText, bytesText]
  cases isCompressed path with
  | true =>
    cases hmagic : Gzip.hasMagic data with
    | true => simp
    | false =>
      have hrefused : decompressText data ≠ .ok text := fun h => by
        rw [hasMagic_of_decompressText h] at hmagic
        cases hmagic
      simp [hrefused]
  | false =>
    cases htext : String.fromUTF8? data with
    | none => cases Gzip.hasMagic data <;> simp
    | some content => simp [Gzip.hasMagic_of_fromUTF8? htext]

/-- A file without a text fails before its documents are looked for. -/
lemma cause?_of_fileText {failure : LoadFailure} (h : fileText path (some data) = .error failure) :
    failure.cause? = none := by
  rw [fileText] at h
  split_ifs at h
  · rw [decompressText] at h
    split at h
    · cases h
    · exact Except.error.inj h ▸ rfl
  · split at h
    · cases h
    · exact Except.error.inj h ▸ rfl

/-- The documents of a source are those of its text. -/
lemma parse_bind_eq_ok_iff {source : Except LoadFailure String}
    {failure : DocumentError → LoadFailure} :
    (do (Yaml.parse (← source)).mapError failure : Except LoadFailure (List Node)) =
        .ok documents ↔ ∃ text, source = .ok text ∧ Yaml.parse text = .ok documents := by
  cases source with
  | error e => simp [bind, Except.bind]
  | ok text => cases h : Yaml.parse text <;> simp [bind, Except.bind, Except.mapError, h]

/--
A file has the documents of its bytes if its extension is `gz` exactly when the bytes start like
compressed data. Otherwise it fails without a look at any document, so that a file and its bytes
never have different documents. The extension is `gz` if the name ends in it, with something in
front of the dot.
-/
theorem loadFile_eq_ok_iff (path : String) (data : ByteArray) :
    (∀ documents, loadFile path (some data) = .ok documents ↔
        (extension? path = some "gz" ↔ Gzip.hasMagic data = true) ∧
          loadBytes data = .ok documents) ∧
      (∀ documents documents', loadFile path (some data) = .ok documents →
        loadBytes data = .ok documents' → documents = documents') ∧
      (¬(extension? path = some "gz" ↔ Gzip.hasMagic data = true) →
        ∃ failure, loadFile path (some data) = .error failure ∧ failure.cause? = none) ∧
      (extension? path = some "gz" ↔
        ∃ stem, stem ≠ "" ∧ fileName? path = some (stem ++ ".gz")) := by
  have hagree : (extension? path = some "gz" ↔ Gzip.hasMagic data = true) ↔
      isCompressed path = Gzip.hasMagic data := by
    rw [Bool.eq_iff_iff (a := isCompressed path), isCompressed, decide_eq_true_iff]
  have hload : ∀ documents, loadFile path (some data) = .ok documents ↔
      isCompressed path = Gzip.hasMagic data ∧ loadBytes data = .ok documents := by
    intro documents
    rw [loadFile, loadBytes, parse_bind_eq_ok_iff, parse_bind_eq_ok_iff, ← exists_and_left]
    exact exists_congr fun text => by rw [fileText_eq_ok_iff, and_assoc]
  refine ⟨fun documents => by rw [hagree, hload], fun documents documents' hfile hbytes => ?_,
    ?_, ?_⟩
  · exact Except.ok.inj (((hload documents).mp hfile).2.symm.trans hbytes)
  · rw [hagree]
    intro hmislabelled
    -- plain data does not decompress and gzip data is no UTF-8: there is no text to read
    cases hfile : fileText path (some data) with
    | ok text => exact absurd (fileText_eq_ok_iff.mp hfile).1 hmislabelled
    | error failure =>
      refine ⟨failure, ?_, cause?_of_fileText hfile⟩
      rw [loadFile, hfile]
      rfl
  · rw [extension?_eq_some_iff (by decide)]
    simp only [String.append_assoc]
    rfl

end Source
end YamlSieve
