import FastFirebird.StarColumns

/-! How the described outputs are mapped to the stars of a list, and when each star gets
its own. -/
namespace FastFirebird
attribute [local irreducible] lexStep

/-- A select item with the outputs that are described for it. -/
abbrev SelectRow := ListItem × List SqlVarDesc

def outputsOf (rows : List SelectRow) : List SqlVarDesc := (rows.map Prod.snd).flatten

/-- How many outputs of the items behind it a star takes, when the mapping is already `e`
outputs too far: those in a row that carry its alias, as far as the items behind can spare them. -/
def overshoot (key : Text) (e : Nat) (run : List SqlVarDesc) (later : List SelectRow) : Nat :=
  let k := e - run.length
  min (k + runLength key ((outputsOf later).drop k)) ((outputsOf later).length - later.length)

section Runs

variable (maps : CaseMaps)

/-- From `e` outputs too far, some star finds an output of another alias. -/
def Stranded : Nat → List SelectRow → Prop
  | _, [] => False
  | e, (i, run) :: rows =>
    match i.key maps with
    | none => Stranded e rows
    | some key =>
      ((run ++ outputsOf rows)[e]?.any (carries key)) = false ∨
        Stranded (overshoot key e run rows) rows

/-- Behind the outputs of a star the next one has another alias, or all that follow are the
only outputs of their items. -/
def Unambiguous : List SelectRow → Prop
  | [] => True
  | (i, _) :: rows =>
    (∀ key ∈ i.key maps,
      (∀ d ∈ (outputsOf rows).head?, carries key d = false) ∨ ∀ r ∈ rows, r.2.length = 1) ∧
    Unambiguous rows

instance decidableStranded : (e : Nat) → (rows : List SelectRow) → Decidable (Stranded maps e rows)
  | _, [] => .isFalse id
  | e, (i, run) :: rows =>
    match hkey : i.key maps with
    | none =>
      have := decidableStranded e rows
      decidable_of_iff (Stranded maps e rows) (by rw [Stranded, hkey])
    | some key =>
      have := decidableStranded (overshoot key e run rows) rows
      decidable_of_iff (((run ++ outputsOf rows)[e]?.any (carries key)) = false ∨
        Stranded maps (overshoot key e run rows) rows) (by rw [Stranded, hkey])

instance decidableUnambiguous : (rows : List SelectRow) → Decidable (Unambiguous maps rows)
  | [] => .isTrue trivial
  | (i, _) :: rows =>
    have := decidableUnambiguous rows
    inferInstanceAs (Decidable ((∀ key ∈ i.key maps,
      (∀ d ∈ (outputsOf rows).head?, carries key d = false) ∨ ∀ r ∈ rows, r.2.length = 1) ∧
      Unambiguous maps rows))

/-- The outputs that a star is mapped to, from `e` outputs too far. -/
def assigned : Nat → List SelectRow → List SelectRow
  | _, [] => []
  | e, (i, run) :: rows =>
    match i.key maps with
    | none => (i, run) :: assigned e rows
    | some key =>
      let e' := overshoot key e run rows
      (i, ((run ++ outputsOf rows).take (run.length + e')).drop e) :: assigned e' rows

/-- The stars of a list, each with its outputs. -/
def starsOf (behind : List Lexeme) (tail : Text) : List SelectRow → List (StarItem × List SqlVarDesc)
  | [] => []
  | (i, run) :: rows =>
    match i.starItem maps (behindItem i (rows.map Prod.fst) behind tail) with
    | none => starsOf behind tail rows
    | some star => (star, run) :: starsOf behind tail rows

def parsedItems (behind : List Lexeme) (tail : Text) : List ListItem → List (Option StarItem)
  | [] => []
  | i :: items => i.starItem maps (behindItem i items behind tail) :: parsedItems behind tail items

/-- The outputs that are described for an item. -/
structure SelectRowOk (r : SelectRow) : Prop where
  ne_nil : r.2 ≠ []
  plain : r.1.star = none → r.2.length = 1
  carried : ∀ key ∈ r.1.key maps, ∀ d ∈ r.2, carries key d = true

variable {maps}

theorem outputsOf_cons (r : SelectRow) (rows : List SelectRow) : outputsOf (r :: rows) = r.2 ++ outputsOf rows := rfl

theorem outputsOf_length {rows : List SelectRow} (h : ∀ r ∈ rows, SelectRowOk maps r) :
    rows.length ≤ (outputsOf rows).length := by
  induction rows with
  | nil => exact Nat.le_refl 0
  | cons r rows ih =>
    obtain ⟨hr, hrows⟩ := List.forall_mem_cons.mp h
    have hpos := List.length_pos_iff.mpr hr.ne_nil
    have hrest := ih hrows
    rw [outputsOf_cons, List.length_append, List.length_cons]
    omega

theorem runLength_append {key : Text} {run : List SqlVarDesc} (h : ∀ d ∈ run, carries key d = true)
    (later : List SqlVarDesc) : runLength key (run ++ later) = run.length + runLength key later := by
  rw [runLength, List.takeWhile_append_of_pos h, List.length_append]
  rfl

/-- The end of the run that the mapping finds from `e` outputs too far. -/
theorem runLength_drop {key : Text} {run : List SqlVarDesc} (h : ∀ d ∈ run, carries key d = true)
    (e : Nat) (later : List SqlVarDesc) :
    e + runLength key ((run ++ later).drop e) =
      run.length + ((e - run.length) + runLength key (later.drop (e - run.length))) := by
  rcases Nat.le_total e run.length with hle | hle
  · have hdrop : ∀ d ∈ run.drop e, carries key d = true := fun d hd => h d (List.mem_of_mem_drop hd)
    rw [List.drop_append_of_le_length hle, runLength_append hdrop, List.length_drop,
      Nat.sub_eq_zero_of_le hle, List.drop_zero]
    omega
  · rw [List.drop_append, List.drop_eq_nil_of_le hle, List.nil_append]
    omega

theorem sliceOutputs_nat (outputs : List SqlVarDesc) {a b : Nat} (ha : a ≤ outputs.length)
    (hb : b ≤ outputs.length) : sliceOutputs outputs a b = (outputs.take b).drop a := by
  have bound {n : Nat} (hn : n ≤ outputs.length) : sliceBound outputs.length n = n := by
    rw [sliceBound, if_neg (by omega)]
    exact Nat.min_eq_left hn
  rw [sliceOutputs, bound ha, bound hb]

theorem outputAt_nat (pre outputs : List SqlVarDesc) (e : Nat) :
    outputAt (pre ++ outputs) ((pre.length + e : Nat) : Int) = outputs[e]? := by
  rw [outputAt, if_neg (by omega), Int.toNat_natCast, List.getElem?_append_right (Nat.le_add_right _ _),
    Nat.add_sub_cancel_left]

theorem assigned_items (e : Nat) (rows : List SelectRow) :
    (assigned maps e rows).map Prod.fst = rows.map Prod.fst := by
  induction rows generalizing e with
  | nil => rfl
  | cons r rows ih =>
    obtain ⟨i, run⟩ := r
    rw [assigned]
    split
    · rw [List.map_cons, List.map_cons, ih]
    · rw [List.map_cons, List.map_cons, ih]

theorem starsOf_cons (behind : List Lexeme) (tail : Text) (i : ListItem) (run : List SqlVarDesc)
    {rows : List SelectRow} {items : List ListItem} (h : rows.map Prod.fst = items) :
    starsOf maps behind tail ((i, run) :: rows) =
      match i.starItem maps (behindItem i items behind tail) with
      | none => starsOf maps behind tail rows
      | some star => (star, run) :: starsOf maps behind tail rows := by
  rw [starsOf, h]

theorem key_of_star {i : ListItem} {q : Text} (h : i.star = some (some q)) :
    i.key maps = some (unquote maps q) := by
  rw [ListItem.key, h]
  rfl

theorem key_none {i : ListItem} (h : i.star = none) : i.key maps = none := by
  rw [ListItem.key, h]
  rfl

theorem overshoot_le (key : Text) (e : Nat) (run : List SqlVarDesc) (later : List SelectRow) :
    overshoot key e run later ≤ (outputsOf later).length - later.length := Nat.min_le_right _ _

theorem parsedItems_length (behind : List Lexeme) (tail : Text) (items : List ListItem) :
    (parsedItems maps behind tail items).length = items.length := by
  induction items with
  | nil => rfl
  | cons i items ih => rw [parsedItems, List.length_cons, List.length_cons, ih]

theorem runLength_pos {key : Text} {e : Nat} {outputs : List SqlVarDesc}
    (h : outputs[e]?.any (carries key) = true) : 0 < runLength key (outputs.drop e) := by
  cases hd : outputs[e]? with
  | none =>
    rw [hd] at h
    exact absurd h (by simp)
  | some d =>
    rw [hd] at h
    obtain ⟨hlt, hget⟩ := List.getElem?_eq_some_iff.mp hd
    have hcarries : carries key outputs[e] = true := by
      rw [hget]
      exact h
    rw [List.drop_eq_getElem_cons hlt, runLength, List.takeWhile_cons, hcarries]
    exact Nat.succ_pos _

/-- What one step of the mapping takes for a qualified star. -/
theorem mapOutputs_star {outputs : List SqlVarDesc} {n : Nat} {star : StarItem}
    {rest : List (Option StarItem)} {key : Text} (hk : star.qualifierKey = some key)
    {pre run later : List SqlVarDesc} (ho : outputs = pre ++ (run ++ later))
    (hrun : ∀ d ∈ run, carries key d = true) {e : Nat} (hspare : rest.length ≤ later.length)
    (he : e + rest.length < run.length + later.length) :
    ((run ++ later)[e]?.any (carries key) = false → ∃ err,
      mapOutputs outputs n (some star :: rest) ((pre.length + e : Nat) : Int) = .error err) ∧
    ((run ++ later)[e]?.any (carries key) = true →
      let e' := min (e - run.length + runLength key (later.drop (e - run.length)))
        (later.length - rest.length)
      mapOutputs outputs n (some star :: rest) ((pre.length + e : Nat) : Int) = (do
        let (stars, last) ← mapOutputs outputs n rest (((pre ++ run).length + e' : Nat) : Int)
        pure ((star, ((run ++ later).take (run.length + e')).drop e) :: stars, last))) := by
  have hat := outputAt_nat pre (run ++ later) e
  have hend := runLength_drop hrun e later
  have hlen : outputs.length = pre.length + (run.length + later.length) := by
    rw [ho, List.length_append, List.length_append]
  have hdrop : outputs.drop ((pre.length + e : Nat) : Int).toNat = (run ++ later).drop e := by
    rw [ho, Int.toNat_natCast, List.drop_length_add_append]
  rw [← ho] at hat
  rw [mapOutputs, hk]
  dsimp only
  rw [hat]
  refine ⟨fun h => ?_, fun h => ?_⟩
  · rw [h, if_neg (by simp)]
    exact ⟨_, rfl⟩
  · have hpos := runLength_pos h
    rw [if_pos h, hdrop]
    generalize hr : runLength key ((run ++ later).drop e) = r at hend hpos
    generalize hr' : runLength key (later.drop (e - run.length)) = r' at hend
    generalize he' : min (e - run.length + r') (later.length - rest.length) = e'
    have hstop : (if (outputs.length : Int) - (((pre.length + e : Nat) : Int) + (r : Int)) < rest.length
        then (outputs.length : Int) - rest.length else ((pre.length + e : Nat) : Int) + (r : Int)) =
        ((pre.length + (run.length + e') : Nat) : Int) := by
      split <;> omega
    have hslice : sliceOutputs outputs ((pre.length + e : Nat) : Int)
        ((pre.length + (run.length + e') : Nat) : Int) =
        ((run ++ later).take (run.length + e')).drop e := by
      rw [sliceOutputs_nat _ (by omega) (by omega), ho, List.take_length_add_append,
        List.drop_length_add_append]
    have hne : (((run ++ later).take (run.length + e')).drop e).isEmpty = false := by
      rw [List.isEmpty_eq_false_iff, ← List.length_pos_iff, List.length_drop, List.length_take,
        List.length_append]
      omega
    rw [hstop, hslice, hne, List.length_append, Nat.add_assoc]
    rfl

/-- Every qualified star finds an output of its alias and takes from there what is assigned
to it, or the mapping fails. -/
theorem mapOutputs_rows {behind : List Lexeme} {tail : Text} {n : Nat} {rows : List SelectRow}
    (hrows : ∀ r ∈ rows, SelectRowOk maps r) (hbare : ∀ r ∈ rows, r.1.star ≠ some none)
    (pre : List SqlVarDesc) {e : Nat} (he : e ≤ (outputsOf rows).length - rows.length) :
    (Stranded maps e rows → ∃ err, mapOutputs (pre ++ outputsOf rows) n
      (parsedItems maps behind tail (rows.map Prod.fst)) ((pre.length + e : Nat) : Int) = .error err) ∧
    (¬ Stranded maps e rows → mapOutputs (pre ++ outputsOf rows) n
      (parsedItems maps behind tail (rows.map Prod.fst)) ((pre.length + e : Nat) : Int) =
        .ok (starsOf maps behind tail (assigned maps e rows), (pre ++ outputsOf rows).length)) := by
  induction rows generalizing pre e with
  | nil =>
    have he0 : e = 0 := Nat.le_zero.mp he
    subst he0
    refine ⟨fun h => h.elim, fun _ => ?_⟩
    simp [parsedItems, mapOutputs, starsOf, assigned, outputsOf]
  | cons r rows ih =>
    obtain ⟨i, run⟩ := r
    obtain ⟨hr, hrest⟩ := List.forall_mem_cons.mp hrows
    obtain ⟨hb, hbares⟩ := List.forall_mem_cons.mp hbare
    have hspare := outputsOf_length hrest
    have hpos := List.length_pos_iff.mpr hr.ne_nil
    have happ : pre ++ outputsOf ((i, run) :: rows) = (pre ++ run) ++ outputsOf rows := by
      rw [outputsOf_cons, List.append_assoc]
    rw [outputsOf_cons, List.length_append, List.length_cons] at he
    rw [List.map_cons, parsedItems]
    cases hstar : i.star with
    | none =>
      have hkey : i.key maps = none := key_none hstar
      have hitem : i.starItem maps (behindItem i (rows.map Prod.fst) behind tail) = none := by
        rw [ListItem.starItem, hstar]
        rfl
      have hone : run.length = 1 := hr.plain hstar
      have hcursor : ((pre.length + e : Nat) : Int) + 1 = (((pre ++ run).length + e : Nat) : Int) := by
        rw [List.length_append, hone]
        omega
      dsimp only at he hpos
      obtain ⟨hbad, hgood⟩ := ih hrest hbares (pre ++ run) (by omega : e ≤ _)
      rw [hitem, Stranded, assigned, hkey, happ]
      dsimp only
      rw [mapOutputs, hcursor, starsOf_cons _ _ _ _ (assigned_items e rows), hitem]
      exact ⟨hbad, hgood⟩
    | some qualifier =>
      cases qualifier with
      | none => exact absurd hstar hb
      | some q =>
        have hkey : i.key maps = some (unquote maps q) := key_of_star hstar
        have hitem : i.starItem maps (behindItem i (rows.map Prod.fst) behind tail) =
            some ⟨some q, some (unquote maps q), i.textFrom (behindItem i (rows.map Prod.fst) behind tail),
              behindItem i (rows.map Prod.fst) behind tail⟩ := by
          rw [ListItem.starItem, hstar]
          rfl
        have hcarried : ∀ d ∈ run, carries (unquote maps q) d = true := hr.carried _ hkey
        have hend := runLength_drop hcarried e (outputsOf rows)
        have hover := overshoot_le (unquote maps q) e run rows
        have hlater := @parsedItems_length maps behind tail (rows.map Prod.fst)
        rw [List.length_map] at hlater
        dsimp only at he hpos
        generalize hstarItem : (⟨some q, some (unquote maps q),
          i.textFrom (behindItem i (rows.map Prod.fst) behind tail),
          behindItem i (rows.map Prod.fst) behind tail⟩ : StarItem) = star at hitem
        have hqual : star.qualifierKey = some (unquote maps q) := by rw [← hstarItem]
        have hout : pre ++ outputsOf ((i, run) :: rows) = pre ++ (run ++ outputsOf rows) := by
          rw [outputsOf_cons]
        obtain ⟨hthrow, hstep⟩ := @mapOutputs_star _ n star
          (parsedItems maps behind tail (rows.map Prod.fst)) _ hqual pre run (outputsOf rows) hout
          hcarried e (by omega) (by omega)
        rw [hitem, Stranded, assigned, hkey]
        dsimp only
        rw [hlater] at hstep
        change _ → mapOutputs _ _ _ _ = (do
          let (stars, last) ← mapOutputs _ _ _ (((pre ++ run).length +
            overshoot (unquote maps q) e run rows : Nat) : Int)
          pure ((_, ((run ++ outputsOf rows).take (run.length +
            overshoot (unquote maps q) e run rows)).drop e) :: stars, last)) at hstep
        obtain ⟨hbad, hgood⟩ := ih hrest hbares (pre ++ run) (overshoot_le (unquote maps q) e run rows)
        rw [happ] at hthrow hstep ⊢
        refine ⟨fun h => ?_, fun h => ?_⟩
        · cases hany : ((run ++ outputsOf rows)[e]?.any (carries (unquote maps q))) with
          | false => exact hthrow hany
          | true =>
            obtain ⟨err, herr⟩ := hbad (h.resolve_left (by simp [hany]))
            rw [hstep hany, herr]
            exact ⟨err, rfl⟩
        · obtain ⟨hany, hwell⟩ := not_or.mp h
          rw [hstep (by simpa using hany), hgood hwell, starsOf_cons _ _ _ _ (assigned_items _ rows),
            hitem]
          rfl

/-- A bare star gets what the other items leave over. -/
theorem mapOutputs_bare {behind : List Lexeme} {tail : Text} {n : Nat} {outputs : List SqlVarDesc}
    {rows : List SelectRow} (hrows : ∀ r ∈ rows, SelectRowOk maps r) (hkeys : ∀ r ∈ rows, r.1.key maps = none)
    (hbare : ∀ r ∈ rows, r.1.star.isSome = true → outputs.length + 1 = r.2.length + n)
    (pre : List SqlVarDesc) (ho : outputs = pre ++ outputsOf rows) :
    mapOutputs outputs n (parsedItems maps behind tail (rows.map Prod.fst)) pre.length =
      .ok (starsOf maps behind tail rows, outputs.length) := by
  induction rows generalizing pre with
  | nil =>
    rw [ho]
    simp [parsedItems, mapOutputs, starsOf, outputsOf]
  | cons r rows ih =>
    obtain ⟨i, run⟩ := r
    obtain ⟨hr, hrest⟩ := List.forall_mem_cons.mp hrows
    obtain ⟨hk, hks⟩ := List.forall_mem_cons.mp hkeys
    obtain ⟨hb, hbs⟩ := List.forall_mem_cons.mp hbare
    have happ : outputs = (pre ++ run) ++ outputsOf rows := by
      rw [ho, outputsOf_cons, List.append_assoc]
    have hnext := ih hrest hks hbs (pre ++ run) happ
    rw [List.map_cons, parsedItems, starsOf]
    cases hstar : i.star with
    | none =>
      have hitem : i.starItem maps (behindItem i (rows.map Prod.fst) behind tail) = none := by
        rw [ListItem.starItem, hstar]
        rfl
      have hone : run.length = 1 := hr.plain hstar
      have hcursor : ((pre.length : Nat) : Int) + 1 = (((pre ++ run).length : Nat) : Int) := by
        rw [List.length_append, hone]
        omega
      rw [hitem]
      dsimp only
      rw [mapOutputs, hcursor, hnext]
    | some qualifier =>
      have hq : qualifier = none := by
        cases qualifier with
        | none => rfl
        | some q => exact absurd ((key_of_star hstar).symm.trans hk) (by simp)
      subst hq
      have hlen := hb (by rw [hstar]; rfl)
      dsimp only at hlen
      have hpos := List.length_pos_iff.mpr hr.ne_nil
      dsimp only at hpos
      have hrun : (outputs.length : Int) - ((n : Int) - 1) = run.length := by omega
      have hle : pre.length + run.length ≤ outputs.length := by
        rw [happ, List.length_append, List.length_append]
        omega
      have hslice : sliceOutputs outputs (pre.length : Nat) ((pre.length + run.length : Nat) : Int) =
          run := by
        rw [sliceOutputs_nat _ (by omega) hle, happ, List.append_assoc, List.take_length_add_append,
          List.drop_left, List.take_left]
      have hitem : i.starItem maps (behindItem i (rows.map Prod.fst) behind tail) =
          some ⟨none, none, i.textFrom (behindItem i (rows.map Prod.fst) behind tail),
            behindItem i (rows.map Prod.fst) behind tail⟩ := by
        rw [ListItem.starItem, hstar]
        rfl
      rw [List.length_append] at hnext
      rw [hitem, mapOutputs]
      dsimp only
      rw [hrun, if_neg (by omega), ← Int.natCast_add, hslice, hnext]
      rfl

theorem carries_take {key : Text} {outputs : List SqlVarDesc} {n : Nat}
    (h : n ≤ runLength key outputs) : ∀ d ∈ outputs.take n, carries key d = true := by
  intro d hd
  have hstarts := List.takeWhile_prefix (p := carries key) (l := outputs)
  have htake : outputs.take n <+: outputs.takeWhile (carries key) :=
    List.prefix_of_prefix_length_le (List.take_prefix n outputs) hstarts
      ((List.length_take_le n outputs).trans h)
  exact List.mem_takeWhile_imp (htake.subset hd)

/-- What is assigned to a star carries its alias. -/
theorem assigned_carried {key : Text} {e : Nat} {run : List SqlVarDesc} {rows : List SelectRow}
    (hrun : ∀ d ∈ run, carries key d = true)
    (he : e + rows.length < run.length + (outputsOf rows).length)
    (hspare : rows.length ≤ (outputsOf rows).length)
    (hany : (run ++ outputsOf rows)[e]?.any (carries key) = true) :
    let cols := ((run ++ outputsOf rows).take (run.length + overshoot key e run rows)).drop e
    cols.length + e = run.length + overshoot key e run rows ∧ cols ≠ [] ∧
      ∀ d ∈ cols, carries key d = true ∧ d ∈ run ++ outputsOf rows := by
  have hpos := runLength_pos hany
  have hend := runLength_drop hrun e (outputsOf rows)
  have hover : overshoot key e run rows = min (e - run.length +
    runLength key ((outputsOf rows).drop (e - run.length))) ((outputsOf rows).length - rows.length) := rfl
  generalize overshoot key e run rows = e' at hover ⊢
  have hlen : (((run ++ outputsOf rows).take (run.length + e')).drop e).length + e =
      run.length + e' := by
    rw [List.length_drop, List.length_take, List.length_append]
    omega
  refine ⟨hlen, ?_, ?_⟩
  · rw [← List.length_pos_iff]
    omega
  · intro d hd
    refine ⟨?_, List.mem_of_mem_take (List.mem_of_mem_drop hd)⟩
    rw [List.drop_take] at hd
    exact carries_take (by omega) d hd

theorem lengths_one {rows : List SelectRow} (h : ∀ r ∈ rows, SelectRowOk maps r) :
    (outputsOf rows).length ≤ rows.length ↔ ∀ r ∈ rows, r.2.length = 1 := by
  induction rows with
  | nil => simp [outputsOf]
  | cons r rows ih =>
    obtain ⟨hr, hrows⟩ := List.forall_mem_cons.mp h
    have hpos := List.length_pos_iff.mpr hr.ne_nil
    have hle := outputsOf_length hrows
    rw [List.forall_mem_cons, ← ih hrows, outputsOf_cons, List.length_append, List.length_cons]
    omega

/-- When a star that the mapping reaches exactly takes nothing of the items behind it. -/
theorem overshoot_eq_zero {key : Text} {run : List SqlVarDesc} {rows : List SelectRow}
    (h : ∀ r ∈ rows, SelectRowOk maps r) :
    overshoot key 0 run rows = 0 ↔
      (∀ d ∈ (outputsOf rows).head?, carries key d = false) ∨ ∀ r ∈ rows, r.2.length = 1 := by
  have hone := lengths_one h
  have hover : overshoot key 0 run rows =
      min (0 + runLength key (outputsOf rows)) ((outputsOf rows).length - rows.length) := by
    rw [overshoot, Nat.zero_sub, List.drop_zero]
  have hrun : runLength key (outputsOf rows) = 0 ↔
      ∀ d ∈ (outputsOf rows).head?, carries key d = false := by
    cases outputsOf rows with
    | nil => simp [runLength]
    | cons d rest => cases hd : carries key d <;> simp [runLength, hd]
  rw [hover, ← hone, ← hrun]
  omega

theorem run_reached {key : Text} {run : List SqlVarDesc} (hne : run ≠ [])
    (h : ∀ d ∈ run, carries key d = true) (later : List SqlVarDesc) :
    (run ++ later)[0]?.any (carries key) = true := by
  obtain ⟨d, run, rfl⟩ := List.exists_cons_of_ne_nil hne
  exact h d List.mem_cons_self

/-- Then every star gets its own outputs. -/
theorem Unambiguous.exact {rows : List SelectRow} (hrows : ∀ r ∈ rows, SelectRowOk maps r)
    (h : Unambiguous maps rows) : assigned maps 0 rows = rows ∧ ¬ Stranded maps 0 rows := by
  induction rows with
  | nil => exact ⟨rfl, id⟩
  | cons r rows ih =>
    obtain ⟨i, run⟩ := r
    obtain ⟨hr, hrest⟩ := List.forall_mem_cons.mp hrows
    obtain ⟨hhead, htail⟩ := h
    obtain ⟨hassigned, hwell⟩ := ih hrest htail
    rw [assigned, Stranded]
    cases hkey : i.key maps with
    | none => exact ⟨congrArg _ hassigned, hwell⟩
    | some key =>
      have hzero := (@overshoot_eq_zero maps key run rows hrest).mpr (hhead key hkey)
      have hreached := run_reached hr.ne_nil (hr.carried key hkey) (outputsOf rows)
      dsimp only at hreached ⊢
      rw [hzero, Nat.add_zero, List.take_left, List.drop_zero, hassigned, hreached]
      exact ⟨rfl, by simpa using hwell⟩

end Runs

end FastFirebird
