namespace SiteFusion

structure Reg where
  index : UInt32
deriving DecidableEq, Hashable, Repr

structure BlockId where
  index : UInt32
deriving DecidableEq, Hashable, Repr

/-- An operation of a function: a phi, an instruction or a terminator. -/
structure OpId where
  index : UInt32
deriving DecidableEq, Hashable, Repr

structure FuncId where
  index : UInt32
deriving DecidableEq, Hashable, Repr

structure GlobalId where
  index : UInt32
deriving DecidableEq, Hashable, Repr

def numberText (n : UInt32) : String := toString n.toNat

def Reg.text (r : Reg) : String := "$" ++ numberText r.index

def BlockId.text (b : BlockId) : String := "bb" ++ numberText b.index

def OpId.text (o : OpId) : String := "#" ++ numberText o.index

def FuncId.text (f : FuncId) : String := "fn" ++ numberText f.index

def GlobalId.text (g : GlobalId) : String := "g" ++ numberText g.index

end SiteFusion
