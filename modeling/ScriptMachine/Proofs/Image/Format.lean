import ScriptMachine.Image.Reader
import ScriptMachine.Image.Writer
import ScriptMachine.Proofs.Verify.Accepted

namespace ScriptMachine
namespace Image

theorem ofLittleEndian_littleEndian (width n : Nat) :
    ofLittleEndian (littleEndian width n) = n % 256 ^ width := by
  induction width generalizing n with
  | zero => simp [littleEndian, ofLittleEndian, Nat.mod_one]
  | succ width ih =>
    have hbyte : (n % 256).toUInt8.toNat = n % 256 := by simp
    rw [littleEndian, ofLittleEndian, ih, hbyte, Nat.pow_succ', Nat.mod_mul]

theorem littleEndian_ofLittleEndian (t : Text) : littleEndian t.length (ofLittleEndian t) = t := by
  induction t with
  | nil => rfl
  | cons b t ih =>
    have hb : b.toNat < 256 := b.toNat_lt
    have hlow : (b.toNat + 256 * ofLittleEndian t) % 256 = b.toNat := by omega
    have hhigh : (b.toNat + 256 * ofLittleEndian t) / 256 = ofLittleEndian t := by omega
    rw [List.length_cons, ofLittleEndian, littleEndian, hlow, hhigh, ih]
    simp

theorem ofLittleEndian_lt (t : Text) : ofLittleEndian t < 256 ^ t.length := by
  induction t with
  | nil => exact Nat.one_pos
  | cons b t ih =>
    have hb : b.toNat < 256 := b.toNat_lt
    rw [ofLittleEndian, List.length_cons, Nat.pow_succ']
    omega

namespace Reader

theorem bind_eq_ok {r : Reader α} {f : α → Reader β} {c c'' : Cursor} {y : β} :
    (r >>= f) c = .ok (y, c'') ↔ ∃ x c', r c = .ok (x, c') ∧ f x c' = .ok (y, c'') := by
  show StateT.bind r f c = _ ↔ _
  unfold StateT.bind
  rw [Verify.bind_eq_ok]
  exact Prod.exists

theorem pure_eq_ok {x y : α} {c c' : Cursor} :
    (pure x : Reader α) c = .ok (y, c') ↔ y = x ∧ c' = c := by
  show Except.ok (x, c) = _ ↔ _
  rw [Except.ok.injEq, Prod.mk.injEq, eq_comm, @eq_comm _ c]

end Reader

/-- The reader takes the text, leaves what comes after it, and has the value for a result. -/
def Reads (r : Reader α) (t : Text) (x : α) : Prop :=
  ∀ rest offset, r ⟨t ++ rest, offset⟩ = .ok (x, ⟨rest, offset + t.length⟩)

theorem reads_pure (x : α) : Reads (pure x) [] x := by
  intro rest offset
  exact Reader.pure_eq_ok.2 ⟨rfl, rfl⟩

theorem Reads.bind {r : Reader α} {f : α → Reader β} {t u : Text} {x : α} {y : β}
    (hr : Reads r t x) (hf : Reads (f x) u y) : Reads (r >>= f) (t ++ u) y := by
  intro rest offset
  rw [List.append_assoc, List.length_append, ← Nat.add_assoc]
  exact Reader.bind_eq_ok.2 ⟨x, _, hr (u ++ rest) offset, hf rest _⟩

theorem Reads.map {r : Reader α} {t : Text} {x : α} (hr : Reads r t x) (g : α → β) :
    Reads (do return g (← r)) t (g x) := by
  have hbind := hr.bind (f := fun x => pure (g x)) (reads_pure (g x))
  rwa [List.append_nil] at hbind

/-- A writer and a reader of the same part of an image, for values that the writer says all of. -/
structure Format (valid : α → Prop) (write : α → Written) (read : Reader α) : Prop where
  reads {x : α} {t : Text} : valid x → write x = .ok t → Reads read t x
  took {x : α} {c c' : Cursor} : read c = .ok (x, c') →
    valid x ∧ ∃ t, write x = .ok t ∧ c.rest = t ++ c'.rest

theorem format_bytes (n : Nat) :
    Format (fun t : Text => t.length = n) Except.ok (Reader.bytes n) where
  reads := by
    rintro t _ rfl ⟨⟩ rest offset
    simp [Reader.bytes]
  took := by
    intro t c c' h
    simp only [Reader.bytes] at h
    split at h
    · cases h
    · next hlength =>
      cases h
      refine ⟨?_, _, rfl, (List.take_append_drop n c.rest).symm⟩
      rw [List.length_take] at hlength ⊢
      omega

theorem Format.iso {valid : α → Prop} {valid' : β → Prop} {write : α → Written}
    {write' : β → Written} {read : Reader α} (h : Format valid write read) (f : α → β) (g : β → α)
    (hg : ∀ y, valid' y → valid (g y) ∧ f (g y) = y ∧ write (g y) = write' y)
    (hf : ∀ x, valid x → valid' (f x) ∧ g (f x) = x) :
    Format valid' write' (do return f (← read)) where
  reads := by
    intro y t hy ht
    obtain ⟨hvalid, hfg, hwrite⟩ := hg y hy
    have hread := (h.reads hvalid (hwrite.trans ht)).map f
    rwa [hfg] at hread
  took := by
    intro y c c' hread
    obtain ⟨x, c₁, hx, hpure⟩ := Reader.bind_eq_ok.1 hread
    obtain ⟨rfl, rfl⟩ := Reader.pure_eq_ok.1 hpure
    obtain ⟨hvalid, t, ht, hrest⟩ := h.took hx
    obtain ⟨hvalid', hgf⟩ := hf x hvalid
    refine ⟨hvalid', t, ?_, hrest⟩
    rw [← (hg _ hvalid').2.2, hgf, ht]

theorem format_byte : Format (fun _ => True) (fun b => .ok [b]) Reader.byte := by
  refine (format_bytes 1).iso (fun t => t.headD 0) (fun b => [b]) (fun b _ => ⟨rfl, rfl, rfl⟩) ?_
  intro t ht
  obtain ⟨b, rfl⟩ := List.length_eq_one_iff.1 ht
  exact ⟨trivial, rfl⟩

theorem format_littleEndian (width : Nat) :
    Format (fun n => n < 256 ^ width) (fun n => .ok (littleEndian width n))
      (do return ofLittleEndian (← Reader.bytes width)) := by
  refine (format_bytes width).iso ofLittleEndian (littleEndian width) ?_ ?_
  · intro n hn
    exact ⟨length_littleEndian width n,
      by rw [ofLittleEndian_littleEndian, Nat.mod_eq_of_lt hn], rfl⟩
  · rintro t rfl
    exact ⟨ofLittleEndian_lt t, littleEndian_ofLittleEndian t⟩

theorem format_word : Format (fun n => n < 2 ^ 32) (fun n => .ok (word n)) Reader.word :=
  format_littleEndian 4

theorem format_unsigned : Format (fun _ => True) (fun w : UInt32 => .ok (word w.toNat))
    (do return (← Reader.word).toUInt32) := by
  refine format_word.iso Nat.toUInt32 UInt32.toNat ?_ ?_
  · intro w _
    exact ⟨w.toNat_lt, by simp, rfl⟩
  · intro n hn
    exact ⟨trivial, by simpa using hn⟩

theorem format_signedWord :
    Format (fun _ => True) (fun w => .ok (signedWord w)) Reader.signedWord := by
  refine format_word.iso (fun n => n.toUInt32.toInt32) (fun w => w.toUInt32.toNat) ?_ ?_
  · intro w _
    exact ⟨w.toUInt32.toNat_lt, by simp, rfl⟩
  · intro n hn
    exact ⟨trivial, by simpa using hn⟩

theorem format_number : Format (fun _ => True)
    (fun x : Number => .ok (littleEndian 8 x.bits.toNat)) Reader.number := by
  refine (format_bytes 8).iso (fun t => Number.mk (ofLittleEndian t).toUInt64)
    (fun x => littleEndian 8 x.bits.toNat) ?_ ?_
  · intro x _
    have hlt : x.bits.toNat < 256 ^ 8 := x.bits.toNat_lt
    refine ⟨length_littleEndian .., ?_, rfl⟩
    rw [ofLittleEndian_littleEndian, Nat.mod_eq_of_lt hlt]
    simp
  · intro t ht
    have hlt : ofLittleEndian t < 2 ^ 64 := by
      have := ofLittleEndian_lt t
      rwa [ht] at this
    refine ⟨trivial, ?_⟩
    rw [show (ofLittleEndian t).toUInt64.toNat = ofLittleEndian t by simpa using hlt, ← ht,
      littleEndian_ofLittleEndian]

theorem size_eq_ok {n : Nat} {what t : Text} : size n what = .ok t ↔ n < 2 ^ 32 ∧ t = word n := by
  unfold size
  split
  · next h => rw [Except.ok.injEq, eq_comm, and_iff_right h]
  · next h => exact ⟨nofun, fun hlt => absurd hlt.1 h⟩

theorem string_eq_ok {t u : Text} :
    string t = .ok u ↔ t.length < 2 ^ 32 ∧ u = word t.length ++ t := by
  simp only [string, Verify.bind_eq_ok, size_eq_ok]
  constructor
  · rintro ⟨_, ⟨hlt, rfl⟩, ⟨⟩⟩
    exact ⟨hlt, rfl⟩
  · rintro ⟨hlt, rfl⟩
    exact ⟨_, ⟨hlt, rfl⟩, rfl⟩

theorem format_string : Format (fun _ => True) string Reader.string where
  reads := by
    intro t u _ hu
    obtain ⟨hlt, rfl⟩ := string_eq_ok.1 hu
    exact (format_word.reads hlt rfl).bind ((format_bytes t.length).reads rfl rfl)
  took := by
    intro t c c' h
    obtain ⟨n, c₁, hn, ht⟩ := Reader.bind_eq_ok.1 h
    obtain ⟨hlt, _, ⟨⟩, hc⟩ := format_word.took hn
    obtain ⟨rfl, _, ⟨⟩, hc₁⟩ := (format_bytes n).took ht
    exact ⟨trivial, _, string_eq_ok.2 ⟨hlt, rfl⟩, by rw [hc, hc₁, List.append_assoc]⟩

theorem each_nil (f : α → Written) : each [] f = .ok [] := rfl

theorem each_cons {x : α} {xs : List α} {f : α → Written} {t : Text} :
    each (x :: xs) f = .ok t ↔ ∃ u v, f x = .ok u ∧ each xs f = .ok v ∧ t = u ++ v := by
  simp only [each, List.mapM_cons, Verify.bind_eq_ok]
  constructor
  · rintro ⟨_, ⟨u, hu, us, hus, ⟨⟩⟩, ⟨⟩⟩
    exact ⟨u, Text.concat us, hu, ⟨us, hus, rfl⟩, rfl⟩
  · rintro ⟨u, _, hu, ⟨us, hus, ⟨⟩⟩, rfl⟩
    exact ⟨u :: us, ⟨u, hu, us, hus, rfl⟩, rfl⟩

section tables

variable {valid : α → Prop} {write : α → Written} {item : Nat → Reader α}

theorem reads_repeated (hitem : ∀ i, Format valid write (item i)) {xs : List α} {t : Text}
    (index : Nat) (hxs : ∀ x ∈ xs, valid x) (ht : each xs write = .ok t) :
    Reads (Reader.repeated item index xs.length) t xs := by
  induction xs generalizing index t with
  | nil =>
    cases ht
    exact reads_pure []
  | cons x xs ih =>
    obtain ⟨u, v, hu, hv, rfl⟩ := each_cons.1 ht
    have hx := (hitem index).reads (hxs x List.mem_cons_self) hu
    have hrest := ih (index + 1) (fun y hy => hxs y (List.mem_cons_of_mem x hy)) hv
    exact hx.bind (hrest.map (x :: ·))

theorem took_repeated (hitem : ∀ i, Format valid write (item i)) {xs : List α} {c c' : Cursor}
    {index n : Nat} (h : Reader.repeated item index n c = .ok (xs, c')) :
    xs.length = n ∧ (∀ x ∈ xs, valid x) ∧ ∃ t, each xs write = .ok t ∧ c.rest = t ++ c'.rest := by
  induction n generalizing index xs c with
  | zero =>
    obtain ⟨rfl, rfl⟩ := Reader.pure_eq_ok.1 h
    exact ⟨rfl, by simp, [], each_nil write, rfl⟩
  | succ n ih =>
    obtain ⟨x, c₁, hx, h⟩ := Reader.bind_eq_ok.1 h
    obtain ⟨ys, c₂, hys, h⟩ := Reader.bind_eq_ok.1 h
    obtain ⟨rfl, rfl⟩ := Reader.pure_eq_ok.1 h
    obtain ⟨hvalid, u, hu, hc⟩ := (hitem index).took hx
    obtain ⟨hlength, hrest, v, hv, hc₁⟩ := ih hys
    refine ⟨by rw [List.length_cons, hlength], ?_, u ++ v, each_cons.2 ⟨u, v, hu, hv, rfl⟩, ?_⟩
    · exact List.forall_mem_cons.2 ⟨hvalid, hrest⟩
    · rw [hc, hc₁, List.append_assoc]

theorem length_each {least : Nat} (hleast : ∀ {x t}, write x = .ok t → least ≤ t.length)
    {xs : List α} {t : Text} (ht : each xs write = .ok t) : xs.length * least ≤ t.length := by
  induction xs generalizing t with
  | nil => simp
  | cons x xs ih =>
    obtain ⟨u, v, hu, hv, rfl⟩ := each_cons.1 ht
    have hx := hleast hu
    have hxs := ih hv
    rw [List.length_cons, List.length_append, Nat.succ_mul]
    omega

theorem table_eq_ok {xs : List α} {what t : Text} : table xs what write = .ok t ↔
    xs.length < 2 ^ 32 ∧ ∃ u, each xs write = .ok u ∧ t = word xs.length ++ u := by
  simp only [table, Verify.bind_eq_ok, size_eq_ok]
  constructor
  · rintro ⟨_, ⟨hlt, rfl⟩, u, hu, ⟨⟩⟩
    exact ⟨hlt, u, hu, rfl⟩
  · rintro ⟨hlt, u, hu, rfl⟩
    exact ⟨_, ⟨hlt, rfl⟩, u, hu, rfl⟩

/-- A table is read back since the bytes of its elements are there when they are counted. -/
theorem format_table (hitem : ∀ i, Format valid write (item i)) {least : Nat}
    (hleast : ∀ {x t}, write x = .ok t → least ≤ t.length) (what what' : Text) :
    Format (fun xs => ∀ x ∈ xs, valid x) (fun xs => table xs what write)
      (Reader.table least what' item) where
  reads := by
    intro xs t hxs ht rest offset
    obtain ⟨hlt, u, hu, rfl⟩ := table_eq_ok.1 ht
    have henough : ¬ xs.length * least > (u ++ rest).length := by
      have := length_each hleast hu
      rw [List.length_append]
      omega
    have hcount : Reader.count least what' ⟨word xs.length ++ (u ++ rest), offset⟩ =
        .ok (xs.length, ⟨u ++ rest, offset + (word xs.length).length⟩) := by
      refine Reader.bind_eq_ok.2 ⟨_, _, format_word.reads hlt rfl _ _, ?_⟩
      refine Reader.bind_eq_ok.2 ⟨_, _, rfl, ?_⟩
      rw [if_neg henough]
      exact Reader.pure_eq_ok.2 ⟨rfl, rfl⟩
    rw [List.append_assoc, List.length_append, ← Nat.add_assoc]
    exact Reader.bind_eq_ok.2 ⟨_, _, hcount, reads_repeated hitem 0 hxs hu rest _⟩
  took := by
    intro xs c c' h
    obtain ⟨n, c₁, hcount, h⟩ := Reader.bind_eq_ok.1 h
    obtain ⟨m, c₂, hword, hcount⟩ := Reader.bind_eq_ok.1 hcount
    obtain ⟨c₃, c₄, hget, hcount⟩ := Reader.bind_eq_ok.1 hcount
    cases hget
    split at hcount
    · cases hcount
    · obtain ⟨rfl, rfl⟩ := Reader.pure_eq_ok.1 hcount
      obtain ⟨hlt, _, ⟨⟩, hc⟩ := format_word.took hword
      obtain ⟨rfl, hvalid, u, hu, hrest⟩ := took_repeated hitem h
      exact ⟨hvalid, _, table_eq_ok.2 ⟨hlt, u, hu, rfl⟩, by rw [hc, hrest, List.append_assoc]⟩

theorem format_tableOfAny (hitem : ∀ i, Format (fun _ => True) write (item i)) {least : Nat}
    (hleast : ∀ {x t}, write x = .ok t → least ≤ t.length) (what what' : Text) :
    Format (fun _ => True) (fun xs => table xs what write) (Reader.table least what' item) where
  reads _ ht := (format_table hitem hleast what what').reads (fun _ _ => trivial) ht
  took hr := ⟨trivial, ((format_table hitem hleast what what').took hr).2⟩

end tables

end Image
end ScriptMachine
