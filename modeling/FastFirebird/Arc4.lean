import FastFirebird.Transducers
import FastFirebird.Packet
import Mathlib.Data.UInt

/-! `protocol/crypt/arc4.ts`: the stream cipher of a connection, one for each direction. -/
namespace FastFirebird

/-- `(x + y) & 0xff` is the addition of bytes. -/
structure Rc4 where
  s : Vector UInt8 256
  i : UInt8 := 0
  j : UInt8 := 0
  deriving Repr, DecidableEq

namespace Rc4

def at_ (s : Vector UInt8 256) (k : UInt8) : UInt8 := s.get ⟨k.toNat, UInt8.toNat_lt k⟩

/-- `const t = s[a]; s[a] = s[b]; s[b] = t` -/
def swap (s : Vector UInt8 256) (a b : UInt8) : Vector UInt8 256 :=
  let t := at_ s a
  let s := s.set a.toNat (at_ s b) (UInt8.toNat_lt a)
  s.set b.toNat t (UInt8.toNat_lt b)

def identity : Vector UInt8 256 := Vector.ofFn fun k => UInt8.ofNat k.val

/-- A round of the key scheduling. With an empty key the sum is not a number, and `& 0xff` makes
it zero. -/
def schedule (key : Bytes) (st : Vector UInt8 256 × UInt8) (k : Nat) : Vector UInt8 256 × UInt8 :=
  let (s, j) := st
  let k' := UInt8.ofNat k
  let j := match key[k % key.length]? with
    | some b => j + at_ s k' + b
    | none => 0
  (swap s k' j, j)

def new (key : Bytes) : Rc4 := { s := ((List.range 256).foldl (schedule key) (identity, 0)).1 }

def step (c : Rc4) (b : UInt8) : UInt8 × Rc4 :=
  let i := c.i + 1
  let j := c.j + at_ c.s i
  let s := swap c.s i j
  (b ^^^ at_ s (at_ s i + at_ s j), ⟨s, i, j⟩)

def process (c : Rc4) (data : Bytes) : Bytes × Rc4 := transduce step c data

end Rc4

structure Arc4Filter where
  tx : Rc4
  rx : Rc4

namespace Arc4Filter

def new (sessionKey : Bytes) : Arc4Filter := ⟨.new sessionKey, .new sessionKey⟩

def send (f : Arc4Filter) (data : Bytes) : Bytes × Arc4Filter :=
  let (out, tx) := f.tx.process data
  (out, { f with tx := tx })

def receive (f : Arc4Filter) (data : Bytes) : Bytes × Arc4Filter :=
  let (out, rx) := f.rx.process data
  (out, { f with rx := rx })

end Arc4Filter

/-! A use of a filter in both directions -/

inductive FilterUse where
  | send (data : Bytes)
  | receive (data : Bytes)
  deriving Repr, DecidableEq

namespace FilterUse

def sent : List FilterUse → List Bytes
  | [] => []
  | .send data :: uses => data :: sent uses
  | .receive _ :: uses => sent uses

def received : List FilterUse → List Bytes
  | [] => []
  | .send _ :: uses => received uses
  | .receive data :: uses => data :: received uses

end FilterUse

/-- What has come out of a filter in each direction. -/
structure FilterRun where
  filter : Arc4Filter
  onWire : List Bytes := []
  delivered : List Bytes := []

namespace FilterRun

def use (r : FilterRun) : FilterUse → FilterRun
  | .send data =>
    let (out, filter) := r.filter.send data
    { r with filter := filter, onWire := r.onWire ++ [out] }
  | .receive data =>
    let (out, filter) := r.filter.receive data
    { r with filter := filter, delivered := r.delivered ++ [out] }

/-- From a new filter. -/
def of (sessionKey : Bytes) (uses : List FilterUse) : FilterRun :=
  uses.foldl use { filter := .new sessionKey }

end FilterRun

/-! Each direction by itself -/

namespace FilterRun

open FilterUse

theorem foldl_use (uses : List FilterUse) : ∀ r : FilterRun,
    (uses.foldl use r).onWire =
        r.onWire ++ (transducePieces Rc4.step r.filter.tx (sent uses)).1 ∧
      (uses.foldl use r).delivered =
        r.delivered ++ (transducePieces Rc4.step r.filter.rx (received uses)).1 ∧
      (uses.foldl use r).filter =
        ⟨(transducePieces Rc4.step r.filter.tx (sent uses)).2,
          (transducePieces Rc4.step r.filter.rx (received uses)).2⟩ := by
  induction uses with
  | nil => exact fun r => ⟨(List.append_nil _).symm, (List.append_nil _).symm, rfl⟩
  | cons u uses ih =>
    intro r
    rw [List.foldl_cons]
    cases u with
    | send data =>
      obtain ⟨hwire, hdelivered, hfilter⟩ := ih (r.use (.send data))
      refine ⟨?_, hdelivered, hfilter⟩
      rw [hwire]
      exact List.append_assoc _ _ _
    | receive data =>
      obtain ⟨hwire, hdelivered, hfilter⟩ := ih (r.use (.receive data))
      refine ⟨hwire, ?_, hfilter⟩
      rw [hdelivered]
      exact List.append_assoc _ _ _

/-- What goes on the wire is the cipher's answer to all that was sent, however it was cut. -/
theorem onWire_flatten (key : Bytes) (uses : List FilterUse) :
    (of key uses).onWire.flatten = ((Rc4.new key).process (sent uses).flatten).1 := by
  have hwire := (foldl_use uses { filter := .new key }).1
  rw [of, hwire, List.nil_append]
  exact (transducePieces_flatten Rc4.step _ _).1

theorem delivered_flatten (key : Bytes) (uses : List FilterUse) :
    (of key uses).delivered.flatten = ((Rc4.new key).process (received uses).flatten).1 := by
  have hdelivered := (foldl_use uses { filter := .new key }).2.1
  rw [of, hdelivered, List.nil_append]
  exact (transducePieces_flatten Rc4.step _ _).1

theorem of_filter (key : Bytes) (uses : List FilterUse) :
    (of key uses).filter = ⟨((Rc4.new key).process (sent uses).flatten).2,
      ((Rc4.new key).process (received uses).flatten).2⟩ := by
  have hfilter := (foldl_use uses { filter := .new key }).2.2
  rw [of, hfilter]
  exact congr (congrArg Arc4Filter.mk (transducePieces_flatten Rc4.step _ _).2)
    (transducePieces_flatten Rc4.step _ _).2

end FilterRun

/-! The cipher -/

namespace Rc4

/-- The byte of the keystream and the next state do not depend on the byte that is coded. -/
theorem step_step (c : Rc4) (b : UInt8) : step c (step c b).1 = (b, (step c b).2) := by
  have hxor (k : UInt8) : b ^^^ k ^^^ k = b := by
    rw [UInt8.xor_assoc, UInt8.xor_self, UInt8.xor_zero]
  simp only [step, hxor]

/-- Every byte is in the state once. -/
def IsPermutation (s : Vector UInt8 256) : Prop := s.Perm identity

theorem swap_isPermutation {s : Vector UInt8 256} (h : IsPermutation s) (a b : UInt8) :
    IsPermutation (swap s a b) :=
  (Vector.swap_perm (UInt8.toNat_lt a) (UInt8.toNat_lt b)).trans h

theorem new_isPermutation (key : Bytes) : IsPermutation (new key).s := by
  have hfold : ∀ (ks : List Nat) (st : Vector UInt8 256 × UInt8), IsPermutation st.1 →
      IsPermutation (ks.foldl (schedule key) st).1 := by
    intro ks
    induction ks with
    | nil => exact fun _ h => h
    | cons k ks ih => exact fun st h => ih _ (swap_isPermutation h _ _)
  have hstart : IsPermutation (identity, (0 : UInt8)).1 := Vector.Perm.refl identity
  rw [new]
  generalize List.range 256 = rounds
  exact hfold rounds _ hstart

theorem process_isPermutation {c : Rc4} (h : IsPermutation c.s) (data : Bytes) :
    IsPermutation (c.process data).2.s := by
  have hstep : ∀ (c : Rc4) (b : UInt8), IsPermutation c.s → IsPermutation (step c b).2.s :=
    fun c b h => swap_isPermutation h _ _
  exact @transduce_keeps _ _ _ step (fun c => IsPermutation c.s) hstep data c h

end Rc4

open FilterUse in
/-- What one filter sends another one of the same key receives, however the stream is cut on either
side and whatever else goes through the filters; and the state of a cipher is a permutation from the
key scheduling on. -/
theorem arc4_inverse (key : Bytes) {uses uses' : List FilterUse}
    (hwire : (received uses').flatten = (FilterRun.of key uses).onWire.flatten) :
    (FilterRun.of key uses').delivered.flatten = (sent uses).flatten ∧
      (∀ data, Rc4.IsPermutation ((Rc4.new key).process data).2.s) ∧
      (FilterRun.of key uses).filter.tx = ((Rc4.new key).process (sent uses).flatten).2 ∧
      (FilterRun.of key uses').filter.rx = (FilterRun.of key uses).filter.tx := by
  -- both ends run the cipher over one stream, so their states agree where their positions do
  have hback : (Rc4.new key).process (FilterRun.of key uses).onWire.flatten =
      ((sent uses).flatten, ((Rc4.new key).process (sent uses).flatten).2) := by
    rw [FilterRun.onWire_flatten]
    exact transduce_inverse Rc4.step_step _ _
  have hout : (FilterRun.of key uses').delivered.flatten = (sent uses).flatten := by
    rw [FilterRun.delivered_flatten, hwire, hback]
  have htx : (FilterRun.of key uses).filter.tx =
      ((Rc4.new key).process (sent uses).flatten).2 := by
    rw [FilterRun.of_filter]
  have hrx : (FilterRun.of key uses').filter.rx =
      ((Rc4.new key).process (sent uses).flatten).2 := by
    rw [FilterRun.of_filter, hwire, hback]
  exact ⟨hout, Rc4.process_isPermutation (Rc4.new_isPermutation key), htx, hrx.trans htx.symm⟩

/-- Three bytes in two chunks of two and one, received in two chunks of one and two. -/
theorem arc4_inverse_cut :
    let wire := (FilterRun.of [75, 101, 121] [.send [1, 2], .receive [7], .send [3]]).onWire.flatten
    (FilterRun.of [75, 101, 121]
      [.receive (wire.take 1), .send [9], .receive (wire.drop 1)]).delivered.flatten = [1, 2, 3] := by
  intro wire
  have hcut : (FilterUse.received
      [.receive (wire.take 1), .send [9], .receive (wire.drop 1)]).flatten = wire := by
    simp only [FilterUse.received, List.flatten_cons, List.flatten_nil, List.append_nil,
      List.take_append_drop]
  exact (@arc4_inverse [75, 101, 121] [.send [1, 2], .receive [7], .send [3]] _ hcut).1

end FastFirebird
