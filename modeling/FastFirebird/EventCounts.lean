import FastFirebird.Events
import Mathlib.Data.List.Nodup

/-! What a block of event counts says when it is read back, and what a listener makes of the counts it
is given. -/
namespace FastFirebird.Events

/-! ### Maps of counts -/

def Counts.names (counts : Counts) : List Text := counts.map Prod.fst

section Counts

variable {counts : Counts} {name other : Text} {count : Nat}

theorem Counts.get_set_self : Counts.get (Counts.set name count counts) name = count := by
  induction counts with
  | nil => simp [Counts.set, Counts.get]
  | cons entry rest ih =>
    rw [Counts.set]
    split
    · simp [Counts.get]
    · rename_i hne
      rw [Counts.get, List.lookup_cons, beq_eq_false_iff_ne.mpr (Ne.symm hne)]
      exact ih

theorem Counts.get_set_of_ne (h : other ≠ name) :
    Counts.get (Counts.set name count counts) other = Counts.get counts other := by
  induction counts with
  | nil =>
    rw [Counts.set, Counts.get, List.lookup_cons, beq_eq_false_iff_ne.mpr h]
    rfl
  | cons entry rest ih =>
    rw [Counts.set]
    split
    · rename_i heq
      rw [Counts.get, Counts.get, List.lookup_cons, List.lookup_cons, heq,
        beq_eq_false_iff_ne.mpr h]
    · rw [Counts.get, Counts.get, List.lookup_cons, List.lookup_cons]
      cases other == entry.1 with
      | true => rfl
      | false => exact ih

theorem Counts.names_set (h : name ∈ counts.names) :
    Counts.names (Counts.set name count counts) = counts.names := by
  induction counts with
  | nil => cases h
  | cons entry rest ih =>
    rw [Counts.set]
    split
    · rename_i heq
      rw [Counts.names, Counts.names, List.map_cons, List.map_cons, heq]
    · rename_i hne
      have hrest : name ∈ Counts.names rest := (List.mem_cons.mp h).resolve_left fun heq => hne heq.symm
      exact congrArg (entry.1 :: ·) (ih hrest)

theorem Counts.set_new (h : name ∉ counts.names) : Counts.set name count counts = counts ++ [(name, count)] := by
  induction counts with
  | nil => rfl
  | cons entry rest ih =>
    have hne : entry.1 ≠ name := fun heq => h (List.mem_cons.mpr (.inl heq.symm))
    rw [Counts.set, if_neg hne, ih fun hmem => h (List.mem_cons_of_mem _ hmem)]
    rfl

theorem Counts.get_of_mem (hnodup : counts.names.Nodup) (h : (name, count) ∈ counts) :
    Counts.get counts name = count := by
  induction counts with
  | nil => cases h
  | cons entry rest ih =>
    obtain ⟨hnot, hrest⟩ := List.nodup_cons.mp hnodup
    rw [Counts.get, List.lookup_cons]
    rcases List.mem_cons.mp h with rfl | h
    · simp
    · have hne : name ≠ entry.1 := fun heq => hnot (heq ▸ List.mem_map.mpr ⟨_, h, rfl⟩)
      rw [beq_eq_false_iff_ne.mpr hne]
      exact ih hrest h

end Counts

/-! ### Blocks -/

/-- A name that Latin-1 can say, and a block can hold. -/
structure Plain (name : Text) : Prop where
  latin1 : ∀ c ∈ name, c.toNat < 256
  short : name.length ≤ maxEventName

/-- Counts that a block can say. -/
structure Valid (counts : Counts) : Prop where
  nodup : counts.names.Nodup
  plain : ∀ name ∈ counts.names, Plain name
  bounded : ∀ entry ∈ counts, entry.2 < 2 ^ 32

theorem latin1_plain {name : Text} (h : Plain name) :
    latin1 name = name.map fun c => UInt8.ofNat c.toNat := by
  have hunits : ∀ c ∈ name, (if c.toNat < 0x10000 then [UInt8.ofNat c.toNat]
      else [UInt8.ofNat (0xD800 + (c.toNat - 0x10000) / 0x400),
        UInt8.ofNat (0xDC00 + (c.toNat - 0x10000) % 0x400)]) = [UInt8.ofNat c.toNat] := by
    intro c hc
    have hlow := h.latin1 c hc
    rw [if_pos (by omega)]
  rw [latin1, List.flatMap_congr hunits, List.map_eq_flatMap]

theorem ofLatin1_latin1 {name : Text} (h : Plain name) : ofLatin1 (latin1 name) = name := by
  rw [latin1_plain h, ofLatin1, List.map_map]
  conv_rhs => rw [← List.map_id name]
  apply List.map_congr_left
  intro c hc
  have hlow : (UInt8.ofNat c.toNat).toNat = c.toNat := Nat.mod_eq_of_lt (h.latin1 c hc)
  show Char.ofNat (UInt8.ofNat c.toNat).toNat = c
  rw [hlow, Char.ofNat_toNat]

theorem le32_eq (n : Nat) : le32 n = [UInt8.ofNat n, UInt8.ofNat (n >>> 8), UInt8.ofNat (n >>> 16),
    UInt8.ofNat (n >>> 24)] := rfl

theorem of_le32 {n : Nat} (h : n < 2 ^ 32) : (UInt8.ofNat n).toNat + 256 * ((UInt8.ofNat (n >>> 8)).toNat +
    256 * ((UInt8.ofNat (n >>> 16)).toNat + 256 * (UInt8.ofNat (n >>> 24)).toNat)) = n := by
  have hlow : ∀ m : Nat, (UInt8.ofNat m).toNat = m % 256 := fun _ => rfl
  rw [hlow, hlow, hlow, hlow, Nat.shiftRight_eq_div_pow, Nat.shiftRight_eq_div_pow,
    Nat.shiftRight_eq_div_pow]
  omega

theorem buildEntries_ok {counts : Counts} (h : ∀ name ∈ counts.names, Plain name) :
    ∃ parts, buildEntries counts = .ok parts := by
  induction counts with
  | nil => exact ⟨[], rfl⟩
  | cons entry rest ih =>
    obtain ⟨name, count⟩ := entry
    obtain ⟨parts, hparts⟩ := ih fun n hn => h n (List.mem_cons_of_mem _ hn)
    have hplain : Plain name := h name List.mem_cons_self
    have hlength : ¬ maxEventName < (latin1 name).length := by
      rw [latin1_plain hplain, List.length_map]
      exact Nat.not_lt.mpr hplain.short
    rw [buildEntries, if_neg hlength, hparts]
    exact ⟨_, rfl⟩

theorem buildEpb_ok {counts : Counts} (h : ∀ name ∈ counts.names, Plain name) :
    ∃ epb, buildEpb counts = .ok epb := by
  obtain ⟨parts, hparts⟩ := buildEntries_ok h
  exact ⟨epbVersion1 :: parts, by rw [buildEpb, hparts]; rfl⟩

theorem parseEntries_buildEntries : ∀ {counts before : Counts} {parts : Bytes} {fuel : Nat},
    buildEntries counts = .ok parts → Valid counts → (∀ name ∈ counts.names, name ∉ before.names) →
      parts.length ≤ fuel → parseEntries fuel parts before = .ok (before ++ counts) := by
  intro counts
  induction counts with
  | nil =>
    intro before parts fuel hbuild _ _ _
    obtain rfl : [] = parts := Except.ok.inj hbuild
    rw [List.append_nil]
    cases fuel with
    | zero => rfl
    | succ fuel => rfl
  | cons entry rest ih =>
    intro before parts fuel hbuild hvalid hnew hfuel
    obtain ⟨name, count⟩ := entry
    have hplain : Plain name := hvalid.plain name List.mem_cons_self
    have hlength : (latin1 name).length = name.length := by rw [latin1_plain hplain, List.length_map]
    have hshort : name.length ≤ 255 := hplain.short
    obtain ⟨more, hmore⟩ := buildEntries_ok fun n hn => hvalid.plain n (List.mem_cons_of_mem _ hn)
    rw [buildEntries, if_neg (by rw [hlength]; exact Nat.not_lt.mpr hplain.short), hmore] at hbuild
    obtain rfl := (Except.ok.inj hbuild).symm
    have hlen : (UInt8.ofNat (latin1 name).length).toNat = (latin1 name).length := by
      rw [hlength]
      exact Nat.mod_eq_of_lt (by omega)
    obtain ⟨hnot, hnodup⟩ := List.nodup_cons.mp hvalid.nodup
    have hrest : Valid rest := ⟨hnodup, fun n hn => hvalid.plain n (List.mem_cons_of_mem _ hn),
      fun e he => hvalid.bounded e (List.mem_cons_of_mem _ he)⟩
    cases fuel with
    | zero => simp at hfuel
    | succ fuel =>
      have hset : Counts.set name count before = before ++ [(name, count)] :=
        Counts.set_new (hnew name List.mem_cons_self)
      have hnew' : ∀ n ∈ Counts.names rest, n ∉ Counts.names (before ++ [(name, count)]) := by
        intro n hn hmem
        rw [Counts.names, List.map_append] at hmem
        rcases List.mem_append.mp hmem with hmem | hmem
        · exact hnew n (List.mem_cons_of_mem _ hn) hmem
        · obtain rfl := List.mem_singleton.mp hmem
          exact hnot hn
      have hfuel' : more.length ≤ fuel := by
        simp only [List.length_cons, List.length_append] at hfuel
        omega
      rw [parseEntries, hlen, List.drop_left, le32_eq]
      show parseEntries fuel more _ = _
      rw [List.take_left, ofLatin1_latin1 hplain,
        of_le32 (hvalid.bounded (name, count) List.mem_cons_self), hset, ih hmore hrest hnew' hfuel',
        List.append_assoc]
      rfl

/-- A block says the counts it was built from. -/
theorem parseEpb_buildEpb {counts : Counts} {epb : Bytes} (h : buildEpb counts = .ok epb)
    (hvalid : Valid counts) : parseEpb epb = .ok counts := by
  obtain ⟨parts, hparts⟩ := buildEntries_ok hvalid.plain
  rw [buildEpb, hparts] at h
  obtain rfl : epbVersion1 :: parts = epb := Except.ok.inj h
  have hlength : parts.length ≤ (epbVersion1 :: parts).length := Nat.le_succ _
  exact parseEntries_buildEntries hparts hvalid (fun _ _ h => by cases h) hlength

theorem ofLatin1_low (bytes : Bytes) : ∀ c ∈ ofLatin1 bytes, c.toNat < 256 := by
  intro c hc
  obtain ⟨b, -, rfl⟩ := List.mem_map.mp hc
  have hb : b.toNat < 256 := b.toNat_lt
  have hvalid : b.toNat.isValidChar := .inl (by omega)
  have hvalue : (Char.ofNat b.toNat).toNat = b.toNat := by
    rw [Char.ofNat, dif_pos hvalid]
    rfl
  rw [hvalue]
  exact hb

/-- The names of a parsed block are spelled in Latin-1. -/
theorem parseEntries_latin1 : ∀ {fuel : Nat} {buf : Bytes} {before counts : Counts},
    parseEntries fuel buf before = .ok counts → (∀ name ∈ before.names, ∀ c ∈ name, c.toNat < 256) →
      ∀ name ∈ counts.names, ∀ c ∈ name, c.toNat < 256
  | fuel, [], before, counts, h, hbefore => by
    cases fuel <;> cases h <;> exact hbefore
  | 0, _ :: _, _, _, h, _ => nomatch h
  | fuel + 1, len :: buf, before, counts, h, hbefore => by
    rw [parseEntries] at h
    split at h
    · apply parseEntries_latin1 h
      intro name hname
      by_cases hnew : ofLatin1 (buf.take len.toNat) ∈ before.names
      · rw [Counts.names_set hnew] at hname
        exact hbefore name hname
      · rw [Counts.set_new hnew, Counts.names, List.map_append] at hname
        rcases List.mem_append.mp hname with hname | hname
        · exact hbefore name hname
        · rw [List.mem_singleton.mp hname]
          exact ofLatin1_low _
    · cases h

/-- What a block is built from can be held by a block. -/
theorem buildEntries_short {counts : Counts} {parts : Bytes} (h : buildEntries counts = .ok parts) :
    ∀ name ∈ counts.names, (latin1 name).length ≤ maxEventName := by
  induction counts generalizing parts with
  | nil => exact nofun
  | cons entry rest ih =>
    obtain ⟨name, count⟩ := entry
    rw [buildEntries] at h
    by_cases hlong : maxEventName < (latin1 name).length
    · rw [if_pos hlong] at h
      cases h
    · rw [if_neg hlong] at h
      cases hrest : buildEntries rest with
      | error err =>
        rw [hrest] at h
        cases h
      | ok more =>
        intro other hother
        rcases List.mem_cons.mp hother with rfl | hother
        · exact Nat.not_lt.mp hlong
        · exact ih hrest other hother

theorem latin1_low {name : Text} (h : ∀ c ∈ name, c.toNat < 256) : (latin1 name).length = name.length := by
  induction name with
  | nil => rfl
  | cons c name ih =>
    have hlow := h c List.mem_cons_self
    rw [latin1, List.flatMap_cons, if_pos (by omega), List.length_append]
    have hrest := ih fun d hd => h d (List.mem_cons_of_mem _ hd)
    rw [latin1] at hrest
    rw [hrest, List.length_cons]
    exact Nat.add_comm 1 _

theorem Counts.mem_names_iff {counts : Counts} {name : Text} :
    name ∈ counts.names ↔ (counts.lookup name).isSome = true := by
  induction counts with
  | nil => simp [Counts.names]
  | cons entry rest ih =>
    rw [Counts.names, List.map_cons, List.mem_cons, List.lookup_cons]
    by_cases heq : name = entry.1
    · simp [heq]
    · rw [beq_eq_false_iff_ne.mpr heq]
      exact ⟨fun h => ih.mp (h.resolve_left heq), fun h => .inr (ih.mpr h)⟩

/-- A block says the counts it was built from if, and only if, all the names are in Latin-1. -/
theorem parseEpb_restores_iff {counts : Counts} {epb : Bytes} (hnodup : counts.names.Nodup)
    (hbounded : ∀ entry ∈ counts, entry.2 < 2 ^ 32) (h : buildEpb counts = .ok epb) :
    (∃ told, parseEpb epb = .ok told ∧ ∀ name, told.lookup name = counts.lookup name) ↔
      ∀ name ∈ counts.names, ∀ c ∈ name, c.toNat < 256 := by
  constructor
  · rintro ⟨told, htold, hsame⟩ name hname
    have hmem : name ∈ told.names := by
      rw [Counts.mem_names_iff, hsame, ← Counts.mem_names_iff]
      exact hname
    exact parseEntries_latin1 htold nofun name hmem
  · intro hlatin1
    cases hparts : buildEntries counts with
    | error err =>
      rw [buildEpb, hparts] at h
      cases h
    | ok parts =>
      have hplain : ∀ name ∈ counts.names, Plain name := by
        intro name hname
        have hshort := buildEntries_short hparts name hname
        rw [latin1_low (hlatin1 name hname)] at hshort
        exact ⟨hlatin1 name hname, hshort⟩
      exact ⟨counts, parseEpb_buildEpb h ⟨hnodup, hplain, hbounded⟩, fun _ => rfl⟩

/-- Two names, the second with a count that has its top bit set. -/
theorem parseEpb_restores_two :
    ∃ told, parseEpb [1, 1, 97, 2, 1, 0, 0, 2, 98, 99, 0, 94, 208, 178] = .ok told ∧
      ∀ name, told.lookup name = List.lookup name [(['a'], 258), (['b', 'c'], 3000000000)] := by
  have hnodup : (Counts.names [(['a'], 258), (['b', 'c'], 3000000000)]).Nodup := by decide
  have hbounded : ∀ entry ∈ [(['a'], 258), (['b', 'c'], 3000000000)], entry.2 < 2 ^ 32 := by decide
  have hlow : ∀ name ∈ Counts.names [(['a'], 258), (['b', 'c'], 3000000000)], ∀ c ∈ name, c.toNat < 256 := by
    intro name hname
    have hall : ∀ name ∈ Counts.names [(['a'], 258), (['b', 'c'], 3000000000)],
        (name.all fun c => decide (c.toNat < 256)) = true := by decide
    exact fun c hc => of_decide_eq_true (List.all_eq_true.mp (hall name hname) c hc)
  have hbuilt : buildEpb [(['a'], 258), (['b', 'c'], 3000000000)] =
      .ok [1, 1, 97, 2, 1, 0, 0, 2, 98, 99, 0, 94, 208, 178] := by decide +kernel
  exact (parseEpb_restores_iff hnodup hbounded hbuilt).mpr hlow

/-- `Ā` and the NUL character are the same octet. -/
theorem parseEpb_confuses : ¬ ∃ told, (buildEpb [(['Ā'], 1), (['\x00'], 2)] >>= parseEpb) = .ok told ∧
    ∀ name, told.lookup name = List.lookup name [(['Ā'], 1), (['\x00'], 2)] := by
  rintro ⟨told, htold, hsame⟩
  have hlost : (buildEpb [(['Ā'], 1), (['\x00'], 2)] >>= parseEpb) = .ok [(['\x00'], 2)] := rfl
  obtain rfl := Except.ok.inj (hlost.symm.trans htold)
  exact absurd (hsame ['Ā']) (by decide)

/-! ### What a listener makes of its counts -/

/-- The counts of one event among those of all, in order. -/
def valuesOf (name : Text) (told : List (Text × Nat)) : List Nat :=
  told.filterMap fun entry => if entry.1 = name then some entry.2 else none

/-- The counts that exceed the one before them. -/
def increases : List Nat → List Nat
  | a :: b :: rest => if a < b then b :: increases (b :: rest) else increases (b :: rest)
  | _ => []

theorem increases_concat (d : Nat) : ∀ (a : Nat) (counts : List Nat),
    increases (a :: counts ++ [d]) = increases (a :: counts) ++
      if (a :: counts).getLastD 0 < d then [d] else []
  | a, [] => by
    show (if a < d then [d] else []) = [] ++ if a < d then [d] else []
    rw [List.nil_append]
  | a, b :: rest => by
    have ih := increases_concat d b rest
    show (if a < b then b :: increases (b :: rest ++ [d]) else increases (b :: rest ++ [d])) =
      (if a < b then b :: increases (b :: rest) else increases (b :: rest)) ++
        if (b :: rest).getLastD 0 < d then [d] else []
    rw [ih]
    split
    · rfl
    · rfl

theorem increases_above : ∀ {a : Nat} {counts : List Nat}, (a :: counts).Pairwise (· ≤ ·) →
    (increases (a :: counts)).Pairwise (· < ·) ∧ ∀ c ∈ increases (a :: counts), a < c
  | a, [], _ => ⟨List.Pairwise.nil, fun c hc => by cases hc⟩
  | a, b :: rest, h => by
    obtain ⟨hle, hrest⟩ := List.pairwise_cons.mp h
    obtain ⟨hstrict, habove⟩ := increases_above hrest
    have hab : a ≤ b := hle b List.mem_cons_self
    rw [increases]
    split
    · rename_i hlt
      refine ⟨List.pairwise_cons.mpr ⟨habove, hstrict⟩, ?_⟩
      intro c hc
      rcases List.mem_cons.mp hc with rfl | hc
      · exact hlt
      · exact Nat.lt_of_le_of_lt hab (habove c hc)
    · exact ⟨hstrict, fun c hc => Nat.lt_of_le_of_lt hab (habove c hc)⟩

/-- Counts that never fall have increases that rise. -/
theorem increases_strict {counts : List Nat} (h : counts.Pairwise (· ≤ ·)) :
    (increases counts).Pairwise (· < ·) := by
  cases counts with
  | nil => exact List.Pairwise.nil
  | cons a counts => exact (increases_above h).1

def namedOf (emitted : List Emission) : List (Text × Nat) :=
  emitted.filterMap fun
    | .named name count => some (name, count)
    | .post _ _ => none

def postsOf (emitted : List Emission) : List (Text × Nat) :=
  emitted.filterMap fun
    | .named _ _ => none
    | .post name count => some (name, count)

theorem namedOf_append (emitted more : List Emission) :
    namedOf (emitted ++ more) = namedOf emitted ++ namedOf more := List.filterMap_append

theorem postsOf_append (emitted more : List Emission) :
    postsOf (emitted ++ more) = postsOf emitted ++ postsOf more := List.filterMap_append

/-- A listener's own account: what it has emitted by the name of an event are the increases of what
the server has told it. -/
structure Listener.Sound (l : Listener) : Prop where
  valid : Valid l.counts
  baselined : ∀ name, name ∈ l.baselined ↔ valuesOf name l.delivered ≠ []
  latest : ∀ name ∈ l.counts.names, l.counts.get name = (valuesOf name l.delivered).getLastD 0
  rising : ∀ name, (valuesOf name l.delivered).Pairwise (· ≤ ·)
  emitted : ∀ name, valuesOf name (namedOf l.emitted) = increases (valuesOf name l.delivered)
  known : ∀ entry ∈ namedOf l.emitted, entry.1 ∈ l.counts.names

theorem valuesOf_concat (name other : Text) (count : Nat) (told : List (Text × Nat)) :
    valuesOf other (told ++ [(name, count)]) =
      valuesOf other told ++ if name = other then [count] else [] := by
  rw [valuesOf, List.filterMap_append]
  congr 1
  by_cases h : name = other
  · simp [h]
  · simp [h]

theorem pairwise_concat {counts : List Nat} {count : Nat} (h : counts.Pairwise (· ≤ ·))
    (hlast : counts.getLastD 0 ≤ count) : (counts ++ [count]).Pairwise (· ≤ ·) := by
  rw [List.pairwise_append]
  refine ⟨h, List.pairwise_singleton _ _, ?_⟩
  intro a ha b hb
  obtain rfl := List.mem_singleton.mp hb
  obtain ⟨front, last, rfl⟩ : ∃ front last, counts = front ++ [last] := by
    rcases List.eq_nil_or_concat counts with rfl | ⟨front, last, hcounts⟩
    · cases ha
    · exact ⟨front, last, by rw [hcounts, List.concat_eq_append]⟩
  rw [List.getLastD_concat] at hlast
  rcases List.mem_append.mp ha with ha | ha
  · exact Nat.le_trans ((List.pairwise_append.mp h).2.2 a ha last List.mem_cons_self) hlast
  · obtain rfl := List.mem_singleton.mp ha
    exact hlast

theorem Valid.set {counts : Counts} {name : Text} {count : Nat} (h : Valid counts)
    (hplain : Plain name) (hbound : count < 2 ^ 32) : Valid (counts.set name count) := by
  have hnames : Counts.names (counts.set name count) = counts.names ∨
      (name ∉ counts.names ∧ Counts.names (counts.set name count) = counts.names ++ [name]) := by
    by_cases hname : name ∈ counts.names
    · exact .inl (Counts.names_set hname)
    · right
      refine ⟨hname, ?_⟩
      rw [Counts.set_new hname, Counts.names, List.map_append]
      rfl
  have hentries : ∀ {counts : Counts}, (∀ entry ∈ counts, entry.2 < 2 ^ 32) →
      ∀ entry ∈ Counts.set name count counts, entry.2 < 2 ^ 32 := by
    intro counts
    induction counts with
    | nil =>
      intro _ entry hentry
      obtain rfl := List.mem_singleton.mp hentry
      exact hbound
    | cons first rest ih =>
      intro hall entry hentry
      rw [Counts.set] at hentry
      split at hentry
      · rcases List.mem_cons.mp hentry with rfl | hentry
        · exact hbound
        · exact hall entry (List.mem_cons_of_mem _ hentry)
      · rcases List.mem_cons.mp hentry with rfl | hentry
        · exact hall entry List.mem_cons_self
        · exact ih (fun e he => hall e (List.mem_cons_of_mem _ he)) entry hentry
  refine ⟨?_, ?_, hentries h.bounded⟩
  · rcases hnames with heq | ⟨hnot, heq⟩
    · rw [heq]
      exact h.nodup
    · rw [heq]
      exact List.nodup_append.mpr ⟨h.nodup, List.nodup_singleton _, fun a ha b hb hab =>
        hnot (List.mem_singleton.mp hb ▸ hab ▸ ha)⟩
  · intro other hother
    rcases hnames with heq | ⟨-, heq⟩
    · exact h.plain other (heq ▸ hother)
    · rw [heq] at hother
      rcases List.mem_append.mp hother with hother | hother
      · exact h.plain other hother
      · rw [List.mem_singleton.mp hother]
        exact hplain

/-- What one more count adds to the increases. -/
theorem increases_add (counts : List Nat) (count : Nat) : increases (counts ++ [count]) =
    increases counts ++ if counts ≠ [] ∧ counts.getLastD 0 < count then [count] else [] := by
  cases counts with
  | nil => rfl
  | cons a counts =>
    rw [increases_concat]
    simp

/-- The account with one more count: `l'` differs from `l` by it. -/
theorem Listener.Sound.add {l l' : Listener} {name : Text} {count : Nat} (h : l.Sound)
    (hname : name ∈ l.counts.names) (hcount : l.counts.get name ≤ count) (hbound : count < 2 ^ 32)
    (hcounts : l'.counts = l.counts.set name count)
    (hdelivered : l'.delivered = l.delivered ++ [(name, count)])
    (hbaselined : ∀ other, other ∈ l'.baselined ↔ other ∈ l.baselined ∨ other = name)
    (hemitted : l'.emitted = l.emitted ++
      if name ∈ l.baselined ∧ l.counts.get name < count then [.named name count] else []) : l'.Sound := by
  have hnamed : namedOf l'.emitted = namedOf l.emitted ++
      if name ∈ l.baselined ∧ l.counts.get name < count then [(name, count)] else [] := by
    rw [hemitted, namedOf_append]
    split
    · rfl
    · rfl
  have hvalues : ∀ other, valuesOf other l'.delivered =
      valuesOf other l.delivered ++ if name = other then [count] else [] := by
    intro other
    rw [hdelivered, valuesOf_concat]
  have hrising : ∀ other, (valuesOf other l'.delivered).Pairwise (· ≤ ·) := by
    intro other
    rw [hvalues]
    split
    · rename_i heq
      subst heq
      apply pairwise_concat (h.rising name)
      rw [← h.latest name hname]
      exact hcount
    · rw [List.append_nil]
      exact h.rising other
  have htold : ∀ other, valuesOf other (namedOf l'.emitted) = increases (valuesOf other l'.delivered) := by
    intro other
    rw [hvalues, hnamed]
    by_cases heq : name = other
    · subst heq
      rw [if_pos rfl, increases_add, ← h.emitted name, ← h.latest name hname]
      have hbase := h.baselined name
      by_cases hc : name ∈ l.baselined ∧ l.counts.get name < count
      · rw [if_pos hc, if_pos ⟨hbase.mp hc.1, hc.2⟩, valuesOf_concat, if_pos rfl]
      · rw [if_neg hc, if_neg fun hc' => hc ⟨hbase.mpr hc'.1, hc'.2⟩, List.append_nil, List.append_nil]
    · rw [if_neg heq, List.append_nil, ← h.emitted other]
      split
      · rw [valuesOf_concat, if_neg heq, List.append_nil]
      · rw [List.append_nil]
  refine ⟨?_, fun other => ?_, fun other hother => ?_, hrising, htold, fun entry hentry => ?_⟩
  · rw [hcounts]
    exact h.valid.set (h.valid.plain name hname) hbound
  · rw [hbaselined, h.baselined, hvalues]
    by_cases heq : name = other
    · simp [heq]
    · simp [heq, Ne.symm heq]
  · rw [hcounts, Counts.names_set hname] at hother
    rw [hcounts, hvalues]
    by_cases heq : name = other
    · subst heq
      rw [if_pos rfl, List.getLastD_concat, Counts.get_set_self]
    · rw [if_neg heq, List.append_nil, Counts.get_set_of_ne (Ne.symm heq)]
      exact h.latest other hother
  · rw [hcounts, Counts.names_set hname]
    rw [hnamed] at hentry
    rcases List.mem_append.mp hentry with hentry | hentry
    · exact h.known entry hentry
    · split at hentry
      · rw [List.mem_singleton.mp hentry]
        exact hname
      · cases hentry

/-- A count that does not fall keeps the account, unless `emit` throws. -/
theorem Listener.Sound.deliver {l : Listener} {name : Text} {count : Nat} {handling : Handling} (h : l.Sound)
    (hname : name ∈ l.counts.names) (hcount : l.counts.get name ≤ count) (hbound : count < 2 ^ 32)
    (hdeliver : (l.deliver name count).2 = some handling) : (l.deliver name count).1.Sound := by
  revert hdeliver
  unfold Listener.deliver
  dsimp only
  by_cases hbaselined : name ∈ l.baselined
  · rw [if_neg (not_not.mpr hbaselined)]
    have hsame : ∀ other, other ∈ l.baselined ↔ other ∈ l.baselined ∨ other = name := by
      intro other
      constructor
      · exact .inl
      · rintro (hother | rfl)
        · exact hother
        · exact hbaselined
    by_cases hlt : l.counts.get name < count
    · rw [if_pos hlt]
      split
      · intro hdeliver
        cases hdeliver
      · intro _
        exact h.add hname hcount hbound rfl rfl hsame (by rw [if_pos ⟨hbaselined, hlt⟩])
    · rw [if_neg hlt]
      intro _
      exact h.add hname hcount hbound rfl rfl hsame (by
        rw [if_neg fun hc => hlt hc.2]
        exact (List.append_nil _).symm)
  · rw [if_pos hbaselined]
    intro _
    refine h.add hname hcount hbound rfl rfl (fun other => ?_) ?_
    · show other ∈ l.baselined ++ [name] ↔ _
      rw [List.mem_append, List.mem_singleton]
    · rw [if_neg fun hc => hbaselined hc.1]
      exact (List.append_nil _).symm

theorem Listener.deliver_counts (l : Listener) (name : Text) (count : Nat) :
    (l.deliver name count).1.counts = l.counts.set name count ∧
      (l.deliver name count).1.closed = l.closed := by
  unfold Listener.deliver
  dsimp only
  split
  · exact ⟨rfl, rfl⟩
  split
  · split
    · exact ⟨rfl, rfl⟩
    · exact ⟨rfl, rfl⟩
  · exact ⟨rfl, rfl⟩

/-- What the handlers that run are told is what has just been emitted. -/
theorem Listener.deliver_emitted {l : Listener} {name : Text} {count : Nat} {handling : Handling}
    (h : (l.deliver name count).2 = some handling) :
    handling = .idle ∧ (l.deliver name count).1.emitted = l.emitted ∨
      handling = .named name count ∧
        (l.deliver name count).1.emitted = l.emitted ++ [.named name count] := by
  revert h
  unfold Listener.deliver
  dsimp only
  split
  · intro h
    exact .inl ⟨(Option.some.inj h).symm, rfl⟩
  split
  · split
    · intro h
      cases h
    · intro h
      exact .inr ⟨(Option.some.inj h).symm, rfl⟩
  · intro h
    exact .inl ⟨(Option.some.inj h).symm, rfl⟩

/-- Nothing but an `'error'` that nobody handles makes `emit` throw. -/
theorem Listener.deliver_handled {l : Listener} {name : Text} {count : Nat}
    (h : name = errorEvent → name ∈ l.baselined → l.counts.get name < count → l.errorHandled = true) :
    ∃ handling, (l.deliver name count).2 = some handling := by
  unfold Listener.deliver
  dsimp only
  by_cases hbaselined : name ∈ l.baselined
  · rw [if_neg (not_not.mpr hbaselined)]
    by_cases hlt : l.counts.get name < count
    · have hemits : ¬ (name = errorEvent ∧ l.errorHandled = false) := by
        rintro ⟨herror, hunhandled⟩
        rw [h herror hbaselined hlt] at hunhandled
        cases hunhandled
      rw [if_pos hlt, if_neg hemits]
      exact ⟨_, rfl⟩
    · rw [if_neg hlt]
      exact ⟨_, rfl⟩
  · rw [if_pos hbaselined]
    exact ⟨_, rfl⟩

theorem newListener_names {names : List Text} : ∀ name ∈ (Channel.newListener names).counts.names,
    name ∈ names := by
  have hfold : ∀ (names : List Text) (counts : Counts),
      ∀ name ∈ Counts.names (names.foldl (fun counts name => Counts.set name 0 counts) counts),
        name ∈ counts.names ∨ name ∈ names := by
    intro names
    induction names with
    | nil => exact fun counts name hname => .inl hname
    | cons first names ih =>
      intro counts name hname
      rcases ih (Counts.set first 0 counts) name hname with hname | hname
      · by_cases hold : first ∈ counts.names
        · rw [Counts.names_set hold] at hname
          exact .inl hname
        · rw [Counts.set_new hold, Counts.names, List.map_append] at hname
          rcases List.mem_append.mp hname with hname | hname
          · exact .inl hname
          · rw [List.mem_singleton.mp hname]
            exact .inr List.mem_cons_self
      · exact .inr (List.mem_cons_of_mem _ hname)
  intro name hname
  rcases hfold names [] name hname with hnil | hname
  · cases hnil
  · exact hname

/-- A new listener has been told nothing. -/
theorem newListener_sound {names : List Text} (h : ∀ name ∈ names, Plain name) :
    (Channel.newListener names).Sound := by
  have hfold : ∀ (names : List Text) (counts : Counts), (∀ name ∈ names, Plain name) → Valid counts →
      (∀ name, counts.get name = 0) →
        Valid (names.foldl (fun counts name => Counts.set name 0 counts) counts) ∧
          ∀ name, Counts.get (names.foldl (fun counts name => Counts.set name 0 counts) counts) name = 0 := by
    intro names
    induction names with
    | nil => exact fun counts _ hvalid hzero => ⟨hvalid, hzero⟩
    | cons name names ih =>
      intro counts hplain hvalid hzero
      apply ih (Counts.set name 0 counts) fun n hn => hplain n (List.mem_cons_of_mem _ hn)
      · exact hvalid.set (hplain name List.mem_cons_self) (by decide)
      · intro other
        by_cases heq : other = name
        · rw [heq, Counts.get_set_self]
        · rw [Counts.get_set_of_ne heq, hzero]
  have hempty : Valid ([] : Counts) := ⟨List.nodup_nil, nofun, nofun⟩
  obtain ⟨hvalid, hzero⟩ := hfold names [] h hempty fun _ => rfl
  refine ⟨hvalid, fun name => ?_, fun name _ => hzero name, fun _ => .nil, fun _ => rfl, nofun⟩
  constructor
  · intro hmem
    cases hmem
  · intro hne
    exact absurd rfl hne

end FastFirebird.Events
