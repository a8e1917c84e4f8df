import Islands.Proofs.SourceMap.Positions

/-!
# The position in the output

The output is a text in UTF-8, and its lines are counted over its bytes. The bytes of a line feed
and of a carriage return stand for nothing else (`toNat_eq_of_mem_utf8EncodeChar`), so this is the
position of the text (`Position.advance_utf8Bytes`).
-/

namespace Islands

/-! ## Bytes -/

/-- **A byte below 128** is a character of its own. -/
theorem toNat_eq_of_mem_utf8EncodeChar {c : Char} {b : UInt8} (h : b ∈ String.utf8EncodeChar c)
    (hb : b.toNat < 128) : c.toNat = b.toNat := by
  unfold String.utf8EncodeChar at h
  by_cases hc : c.val.toNat ≤ 127
  · simp only [hc, if_true, List.mem_singleton] at h
    subst h
    rw [UInt8.toNat_ofNat']
    show c.val.toNat = _
    omega
  · -- all bytes of a longer form are above
    have hge : 128 ≤ b.toNat := by
      simp only [hc, if_false] at h
      split at h
      · simp only [List.mem_cons, List.not_mem_nil, or_false] at h
        rcases h with rfl | rfl <;> rw [UInt8.toNat_ofNat'] <;> omega
      split at h
      · simp only [List.mem_cons, List.not_mem_nil, or_false] at h
        rcases h with rfl | rfl | rfl <;> rw [UInt8.toNat_ofNat'] <;> omega
      · simp only [List.mem_cons, List.not_mem_nil, or_false] at h
        rcases h with rfl | rfl | rfl | rfl <;> rw [UInt8.toNat_ofNat'] <;> omega
    omega

theorem eq_of_mem_utf8EncodeChar {c d : Char} {b : UInt8} (h : b ∈ String.utf8EncodeChar c)
    (hb : b.toNat < 128) (hd : d.toNat = b.toNat) : c = d := by
  have hc := toNat_eq_of_mem_utf8EncodeChar h hb
  rw [← hd] at hc
  exact Char.toNat_inj.1 hc

theorem utf8Bytes_cons (c : Char) (cs : List Char) :
    utf8Bytes (c :: cs) = String.utf8EncodeChar c ++ utf8Bytes cs := rfl

theorem head?_of_utf8Bytes {cs : List Char} {rest : List UInt8} (h : utf8Bytes cs = 10 :: rest) :
    cs.head? = some '\n' := by
  cases cs with
  | nil => cases h
  | cons c cs =>
    rw [utf8Bytes_cons] at h
    have hmem : (10 : UInt8) ∈ String.utf8EncodeChar c := by
      cases hbytes : String.utf8EncodeChar c with
      | nil => exact absurd hbytes (String.utf8EncodeChar_ne_nil)
      | cons b bs =>
        rw [hbytes] at h
        obtain ⟨rfl, -⟩ := List.cons.inj h
        exact List.mem_cons_self
    rw [eq_of_mem_utf8EncodeChar hmem (by decide) (d := '\n') rfl]
    rfl

theorem textOfBytes?_utf8Bytes (cs : List Char) : textOfBytes? (utf8Bytes cs) = some cs := by
  have hbytes : (⟨(utf8Bytes cs).toArray⟩ : ByteArray) = (String.ofList cs).toByteArray := by
    show _ = (cs.flatMap String.utf8EncodeChar).toByteArray
    apply ByteArray.ext
    rw [List.data_toByteArray]
    rfl
  have hvalid : (⟨(utf8Bytes cs).toArray⟩ : ByteArray).IsValidUTF8 := by
    rw [hbytes]
    exact (String.ofList cs).isValidUTF8
  have htext : String.fromUTF8 _ hvalid = String.ofList cs := String.toByteArray_inj.1 hbytes
  rw [textOfBytes?, String.fromUTF8?, dif_pos hvalid, htext, Option.map_some,
    String.toList_ofList]

theorem units16OfBytes_utf8Bytes (cs : List Char) :
    units16OfBytes (utf8Bytes cs) = units16 cs := by
  rw [units16OfBytes, textOfBytes?_utf8Bytes]

/-- The bytes of a longer text behind those of a shorter one. -/
theorem extract_utf8Bytes (x y : List Char) :
    ((utf8Bytes (x ++ y)).toArray.extract (byteLength x)
      (utf8Bytes (x ++ y)).toArray.size).toList = utf8Bytes y := by
  rw [Array.toList_extract, List.size_toArray, utf8Bytes_append, ← length_utf8Bytes,
    List.extract_eq_take_drop, List.drop_left, List.length_append, Nat.add_sub_cancel_left,
    List.take_length]

/-! ## Lines -/

theorem lastLine_append_of_ne {bytes : List UInt8} (count : Nat) (line rest : List UInt8)
    (h : ∀ b ∈ bytes, b ≠ 10 ∧ b ≠ 13) :
    lastLine count line (bytes ++ rest) = lastLine count line rest := by
  induction bytes with
  | nil => rfl
  | cons b bytes ih =>
    obtain ⟨hfeed, hreturn⟩ := h b List.mem_cons_self
    rw [List.cons_append, lastLine.eq_3 count line b _ fun _ hb _ => hreturn hb, if_neg (by tauto)]
    exact ih fun b hb => h b (List.mem_cons_of_mem _ hb)

theorem lastLine_cons (count : Nat) (line : List UInt8) (c : Char) (cs : List Char) :
    lastLine count line (utf8Bytes (c :: cs)) =
      if EndsLine c cs then lastLine (count + 1) (utf8Bytes cs) (utf8Bytes cs)
      else lastLine count line (utf8Bytes cs) := by
  rw [utf8Bytes_cons]
  by_cases hfeed : c = '\n'
  · subst hfeed
    rw [if_pos (.inl rfl)]
    show lastLine count line (10 :: utf8Bytes cs) = _
    rw [lastLine.eq_3 _ _ _ _ fun _ hb _ => by cases hb]
    rfl
  by_cases hreturn : c = '\r'
  · subst hreturn
    show lastLine count line (13 :: utf8Bytes cs) = _
    by_cases hhead : cs.head? = some '\n'
    · -- the two characters end one line, which the second one stands for
      obtain ⟨ds, rfl⟩ := List.head?_eq_some_iff.1 hhead
      rw [if_neg (by simp [EndsLine])]
      show lastLine count line (13 :: 10 :: utf8Bytes ds) = lastLine count line (10 :: utf8Bytes ds)
      rw [lastLine, lastLine.eq_3 _ _ 10 _ fun _ hb _ => by cases hb]
      rfl
    · rw [if_pos (.inr ⟨rfl, hhead⟩),
        lastLine.eq_3 _ _ _ _ fun _ _ hbytes => hhead (head?_of_utf8Bytes hbytes)]
      rfl
  · have hends : ¬EndsLine c cs := by
      unfold EndsLine
      tauto
    rw [if_neg hends]
    refine lastLine_append_of_ne _ _ _ fun b hb => ⟨?_, ?_⟩
    · rintro rfl
      exact hfeed (eq_of_mem_utf8EncodeChar hb (by decide) rfl)
    · rintro rfl
      exact hreturn (eq_of_mem_utf8EncodeChar hb (by decide) rfl)

/-- The line ends in a text, and what stands behind the last one, give the position behind the text;
`u` is the text of the line so far. -/
theorem exists_lastLine (count : Nat) (u cs : List Char) :
    ∃ n v, lastLine count (utf8Bytes (u ++ cs)) (utf8Bytes cs) = (count + n, utf8Bytes v) ∧
      (n = 0 → v = u ++ cs) ∧ ∀ p : Position, p.through cs [] =
        if n = 0 then ⟨p.line, p.column + units16 cs⟩ else ⟨p.line + n, units16 v⟩ := by
  induction cs generalizing count u with
  | nil =>
    rw [List.append_nil]
    exact ⟨0, u, rfl, fun _ => rfl, fun _ => rfl⟩
  | cons c cs ih =>
    rw [lastLine_cons]
    by_cases hends : EndsLine c cs
    · obtain ⟨n, v, hlast, hv, hthrough⟩ := ih (count + 1) []
      rw [List.nil_append] at hlast hv
      refine ⟨n + 1, v, ?_, nofun, fun p => ?_⟩
      · rw [if_pos hends, hlast, Nat.add_right_comm, Nat.add_assoc]
      · have hends' : EndsLine c (cs ++ []) := by rwa [List.append_nil]
        rw [Position.through, p.behind_of_endsLine hends', hthrough, if_neg (Nat.succ_ne_zero n)]
        by_cases hn : n = 0
        · rw [if_pos hn, hv hn, hn, Nat.zero_add]
        · rw [if_neg hn, Nat.add_right_comm, Nat.add_assoc]
    · obtain ⟨n, v, hlast, hv, hthrough⟩ := ih count (u ++ [c])
      rw [List.append_assoc, List.singleton_append] at hlast hv
      refine ⟨n, v, by rw [if_neg hends, hlast], hv, fun p => ?_⟩
      have hends' : ¬EndsLine c (cs ++ []) := by rwa [List.append_nil]
      rw [Position.through, p.behind_of_not_endsLine hends', hthrough, Nat.add_assoc,
        ← units16_append, List.singleton_append]

/-- **The position in the output** behind the bytes of a text. -/
theorem Position.advance_utf8Bytes (p : Position) (cs : List Char) :
    p.advance (utf8Bytes cs) = p.through cs [] := by
  obtain ⟨n, v, hlast, -, hthrough⟩ := exists_lastLine 0 [] cs
  rw [Nat.zero_add, List.nil_append] at hlast
  rw [advance, hlast, hthrough, units16OfBytes_utf8Bytes]
  show (if n = 0 then _ else (⟨p.line + n, units16OfBytes (utf8Bytes v)⟩ : Position)) = _
  rw [units16OfBytes_utf8Bytes]

end Islands
