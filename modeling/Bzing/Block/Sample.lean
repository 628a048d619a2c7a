import Bzing.Block.Format

/-!
# A small chain

Two blocks: the first holds a transaction with two outputs and one with a single output, the
second spends an output of the first. `sampleSha256` is SHA-256 on every text that indexing
them hashes; the digests are written as usual, first byte first.
-/

namespace Bzing

open LittleEndian

/-- A digest, from its hexadecimal number. -/
def digest (n : Nat) : BzUint256 := ⟨(bytes 32 n).reverse, by simp⟩

/-- A transaction with the given inputs, without scripts, and with equal outputs. -/
def sampleTx (version : UInt8) (inputs : List Outpoint) (nTxout : Nat)
    (small : nTxout < 2 ^ 32) : Tx where
  version := ⟨[version, 0, 0, 0], rfl⟩
  inputs := inputs.map fun outpoint => ⟨outpoint, [], ⟨[0, 0, 0, 0], rfl⟩⟩
  outputs := List.replicate nTxout ⟨⟨[0, 0, 0, 0, 0, 0, 0, 0], rfl⟩, []⟩
  lockTime := ⟨[0, 0, 0, 0], rfl⟩
  outputs_lt := by rwa [List.length_replicate]

/-- A header of equal bytes. -/
def sampleHeader (b : UInt8) : Field 80 := ⟨List.replicate 80 b, rfl⟩

/-- The hash of `txTwo`. -/
def hashTwo : BzUint256 :=
  digest 0xd171ccb991037c3f8e1c61e1181d410c29ddc9454691469c28140feb92704f2e

/-- The hash of `txOne`. -/
def hashOne : BzUint256 :=
  digest 0x15076e94d70e44963ea254bf2a04fa5664f2f6a2d861780d1d343199b2af8104

def txTwo : Tx := sampleTx 1 [] 2 (by decide)
def txOne : Tx := sampleTx 2 [] 1 (by decide)
def txNone : Tx := sampleTx 3 [] 0 (by decide)
def txSpend : Tx := sampleTx 4 [.of hashTwo 1] 0 (by decide)

def blockFirst : Block := ⟨sampleHeader 0, [txTwo, txOne]⟩
def blockSecond : Block := ⟨sampleHeader 1, [txNone, txSpend]⟩

/-- The hash of `txWide`. -/
def hashWide : BzUint256 :=
  digest 0x2a8323cfb51ae12ffbb154e32abd342477b84a3ea2299f15efc2f8fc5514ca58

/-- As many outputs as would need 8200 bytes of slots. -/
def txWide : Tx := sampleTx 1 [] 1024 (by decide)
def txSpendWide : Tx := sampleTx 4 [.of hashWide 1023] 0 (by decide)

def blockWide : Block := ⟨sampleHeader 0, [txWide]⟩
def blockSpendWide : Block := ⟨sampleHeader 1, [txNone, txSpendWide]⟩

/-- The texts, their digests, and the digests of these. -/
def sampleDigests : List (List UInt8 × Nat × Nat) := [
  (blockFirst.header.1,
    0x5b6fb58e61fa475939767d68a446f97f1bff02c0e5935a3ea8bb51e6515783d8,
    0x4be7570e8f70eb093640c8468274ba759745a7aa2b7d25ab1e0421b259845014),
  (blockSecond.header.1,
    0xfb8e69bdfa2ad15be7cc8a346b74e773d059f96cfc92da89e631895422fe966a,
    0x33092437b29bb76f0bdcf492dd5bc68638b8e2da7130cab23208ffb7f77115fd),
  (txTwo.serialise,
    0xd46894bd3bebaea50c1c1d8c89a27bcf203e42a1b5a9857d8f66c9ed4754ccb4,
    0xd171ccb991037c3f8e1c61e1181d410c29ddc9454691469c28140feb92704f2e),
  (txOne.serialise,
    0xb6fd037729a9f30e79f97231351cca52bf142186359b5c031325918320cd0e5e,
    0x15076e94d70e44963ea254bf2a04fa5664f2f6a2d861780d1d343199b2af8104),
  (txNone.serialise,
    0x41f45e0c4ba13f0e8c873f321d4a83b354816b4f6f1c7cb51b97d7fae02ebe25,
    0x2228f0e9037d4563e141ebba6e045c206265c7a755419727880eaa14226868d6),
  (txSpend.serialise,
    0x272ca6a553199ef6db02cef9f77d3455a8b3413738baa6a19c022de291de82b8,
    0xd447a5e37485b3d291c6ddbd8913164e6a7a4578f9460c7599df07da32fc2833),
  (txWide.serialise,
    0x4eef655b6b81aa88921251d83aa2c87e8d34fc2817e335617251db6ce2cee96d,
    0x2a8323cfb51ae12ffbb154e32abd342477b84a3ea2299f15efc2f8fc5514ca58),
  (txSpendWide.serialise,
    0x6bd1586fa7bc9b6b6be4f26a806dfb4c7da95c7488ae6a1a6ffca8313acc0cc5,
    0x97ae39e4f75c14d0d500c76f83b2b2d023265f054abb66fed4d5fc5ab253d718),
  -- the parents of the transactions in their blocks' Merkle trees
  ((digest 0xd171ccb991037c3f8e1c61e1181d410c29ddc9454691469c28140feb92704f2e).d8 ++
    (digest 0x15076e94d70e44963ea254bf2a04fa5664f2f6a2d861780d1d343199b2af8104).d8,
    0x31af269225b57b6b74bbecb0ce31293d56d905fbc48d0511b353766a046893e0,
    0x1d36fdf0785aaefd5b338a5f948c469c12274d4924ea28cb1411d72e84a3953e),
  ((digest 0x2228f0e9037d4563e141ebba6e045c206265c7a755419727880eaa14226868d6).d8 ++
    (digest 0xd447a5e37485b3d291c6ddbd8913164e6a7a4578f9460c7599df07da32fc2833).d8,
    0x3d48234d72536e9bfe785c9e10703f584c18028d7341927707d91434e2c158ef,
    0xcd982c0492eb569b29e5589f2c7edff83ee2288983735276508015e41ab2513e),
  ((digest 0x2228f0e9037d4563e141ebba6e045c206265c7a755419727880eaa14226868d6).d8 ++
    (digest 0x97ae39e4f75c14d0d500c76f83b2b2d023265f054abb66fed4d5fc5ab253d718).d8,
    0xa716da0b9f388b47c0b84033312d7718991186dcaa2c9f1c18499f6cc2af22cd,
    0x0c5b3e3893176475f2e5d0e1b769dae69039a3343448e27ebd9b705f33cf34b3)]

/-- SHA-256 on the texts of the sample. -/
def sampleSha256 (text : List UInt8) : BzUint256 :=
  match sampleDigests.find? fun entry => text == entry.1 with
  | some entry => digest entry.2.1
  | none =>
    match sampleDigests.find? fun entry => text == (digest entry.2.1).d8 with
    | some entry => digest entry.2.2
    | none => .zero

end Bzing
